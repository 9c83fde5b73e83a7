import Nexora.Cypher.Matches
import Nexora.ValueEq

/-!
# The answers of a query on the nodes that it loads

The executor loads the nodes that carry every label named in the query, or those with the first
property constraint, although only one of the matched nodes may have to. The rows are those of the
whole graph exactly if every node of every match is loaded.
-/

namespace Nexora.Cypher
open Lib Except Finset List

/-- The evaluator. Its rows depend on the matches of the query's clauses and on what the snapshot
shows of their nodes. -/
structure Evaluator (accepts : NodeTest) (Row : Type) where
  eval : NexoraGraphSnapshot → Query → Multiset Row
  respects : ∀ s s' query,
    (∀ patterns, .matching patterns ∈ query.clauses →
      (s.clauseMatches accepts patterns).Perm (s'.clauseMatches accepts patterns) ∧
        ∀ ms ∈ s.clauseMatches accepts patterns, ∀ m ∈ ms, ∀ qid ∈ m.nodes, s.shown qid = s'.shown qid) →
    eval s query = eval s' query

namespace Evaluator

def ofClause (accepts : NodeTest) (patterns : List Pattern) :
    Evaluator accepts (List PathMatch) where
  eval := fun s query => if .matching patterns ∈ query.clauses then ↑(s.clauseMatches accepts patterns) else 0
  respects := by
    intro s s' query h
    split
    · next hclause => exact Multiset.coe_eq_coe.mpr (h patterns hclause).1
    · rfl

end Evaluator

namespace GraphReads

/-- The nodes that a query is about to load: by the labels that it names, by its first property
constraint, or all. -/
def InScope (g : GraphReads) (query : Query) (qid : NexoraId) : Prop :=
  if extractNodeLabels query ≠ [] then ∀ label ∈ extractNodeLabels query, qid ∈ g.labelIndex.nodes label
  else
    match extractNodePropertyFilter query with
    | some (prop, value) => ∃ ids, g.queryPropertyIndex prop value = .ok ids ∧ qid ∈ ids
    | none => ∃ ids, g.allNodeIds = .ok ids ∧ qid ∈ ids

variable {g : GraphReads} {query : Query} {ids : Finset NexoraId} {s : NexoraGraphSnapshot}

theorem mem_nodeIds (h : g.nodeIds query = .ok ids) (qid : NexoraId) :
    qid ∈ ids ↔ g.InScope query qid := by
  unfold nodeIds at h
  unfold InScope
  by_cases hlabels : extractNodeLabels query ≠ []
  · rw [if_pos hlabels] at h ⊢
    obtain rfl := ok.inj h
    exact LabelIndex.mem_queryAll hlabels
  rw [if_neg hlabels] at h ⊢
  cases hfilter : extractNodePropertyFilter query with
  | some constraint =>
    cases hfound : g.queryPropertyIndex constraint.1 constraint.2 with
    | ok found =>
      simp only [hfilter, hfound, ok.injEq] at h ⊢
      simp [h]
    | error e =>
      simp only [hfilter, hfound] at h
      exact absurd h (by simp)
  | none =>
    cases hfound : g.allNodeIds with
    | ok found =>
      simp only [hfilter, hfound, ok.injEq] at h ⊢
      simp [h]
    | error e =>
      simp only [hfilter, hfound] at h
      exact absurd h (by simp)

def stateOf (g : GraphReads) (qid : NexoraId) : NodeReadState :=
  match g.readNodeState qid with
  | .ok state => state
  | .error _ => ⟨[], ∅, [], ∅⟩

theorem bind_eq_ok {E A B : Type} {x : Except E A} {f : A → Except E B} {b : B}
    (h : x >>= f = .ok b) :
    ∃ a, x = .ok a ∧ f a = .ok b := by
  cases x with
  | ok a => exact ⟨a, rfl, h⟩
  | error e => exact absurd h (by simp [bind, Except.bind])

theorem readNode_eq {qid : NexoraId} {node : NexoraId × NodeReadState}
    (h : g.readNode qid = .ok node) :
    node = (qid, g.stateOf qid) := by
  cases hstate : g.readNodeState qid with
  | ok state =>
    simp only [readNode, hstate] at h
    simp only [stateOf, hstate]
    exact (ok.inj h).symm
  | error e =>
    simp only [readNode, hstate] at h
    exact absurd h (by simp)

theorem mapM_readNode_eq {ids : List NexoraId} {nodes : List (NexoraId × NodeReadState)}
    (h : ids.mapM g.readNode = .ok nodes) : nodes = ids.map fun qid => (qid, g.stateOf qid) := by
  rw [← forall₂_eq_eq_eq, forall₂_map_right_iff]
  exact ((mapM_eq_ok_iff.mp h).imp fun _ _ hnode => readNode_eq hnode).flip

theorem loadSnapshot_eq (h : g.loadSnapshot query ids = .ok s) :
    s = snapshotOf query g.stateOf ids.sort := by
  obtain ⟨nodes, hnodes, h⟩ := bind_eq_ok h
  rw [← ok.inj h, mapM_readNode_eq hnodes, snapshotOf]

theorem fromGraph_eq {limit : Nat} (h : g.fromGraph query limit = .ok s) :
    ∃ ids, g.nodeIds query = .ok ids ∧ s = snapshotOf query g.stateOf ids.sort := by
  obtain ⟨ids, hids, h⟩ := bind_eq_ok h
  simp only at h
  split at h
  · exact absurd h (by simp [throw, throwThe, MonadExceptOf.throw, bind, Except.bind])
  · exact ⟨ids, hids, loadSnapshot_eq h⟩

/-! ### Rows -/

theorem sort_eq_filter {more : Finset NexoraId} (h : ids ⊆ more) :
    ids.sort = more.sort.filter fun qid => qid ∈ ids := by
  refine List.Perm.eq_of_pairwise (fun a b _ _ => le_antisymm) (pairwise_sort ids _)
    ((pairwise_sort more _).filter _) ?_
  refine (perm_ext_iff_of_nodup (sort_nodup ids _) ((sort_nodup more _).filter _)).mpr fun qid => ?_
  rw [mem_sort, mem_filter, mem_sort, decide_eq_true_eq]
  exact (and_iff_right_of_imp fun hqid => h hqid).symm

def listed (g : GraphReads) (query : Query) : Finset NexoraId :=
  (g.nodeIds query).toOption.getD ∅ ∪ g.allNodeIds.toOption.getD ∅

def allMatches (accepts : NodeTest) (g : GraphReads) (query : Query) (patterns : List Pattern) :
    List (List PathMatch) :=
  (snapshotOf query g.stateOf (g.listed query).sort).clauseMatches accepts patterns

variable {g : GraphReads} {query : Query} {ids : Finset NexoraId}

theorem mem_clauseMatches (accepts : NodeTest) (h : ids ⊆ g.listed query) (patterns : List Pattern)
    (ms : List PathMatch) :
    ms ∈ (snapshotOf query g.stateOf ids.sort).clauseMatches accepts patterns ↔
      ms ∈ g.allMatches accepts query patterns ∧ ∀ m ∈ ms, ∀ qid ∈ m.nodes, qid ∈ ids := by
  rw [sort_eq_filter h, clauseMatches_restrict, mem_filter]
  simp [allMatches, all_eq_true]

theorem clauseMatches_eq_of {ids' : Finset NexoraId} (accepts : NodeTest) (h : ids ⊆ g.listed query)
    (h' : ids' ⊆ g.listed query) {patterns : List Pattern}
    (hsame : ∀ ms ∈ g.allMatches accepts query patterns,
      (∀ m ∈ ms, ∀ qid ∈ m.nodes, qid ∈ ids) ↔ ∀ m ∈ ms, ∀ qid ∈ m.nodes, qid ∈ ids') :
    (snapshotOf query g.stateOf ids.sort).clauseMatches accepts patterns =
      (snapshotOf query g.stateOf ids'.sort).clauseMatches accepts patterns := by
  rw [sort_eq_filter h, sort_eq_filter h', clauseMatches_restrict, clauseMatches_restrict]
  refine filter_congr fun ms hms => ?_
  rw [Bool.eq_iff_iff]
  simp only [all_eq_true, decide_eq_true_eq]
  exact hsame ms hms

theorem shown_eq_of_mem {qid : NexoraId} (h : ids ⊆ g.listed query) (hqid : qid ∈ ids) :
    (snapshotOf query g.stateOf ids.sort).shown qid = (snapshotOf query g.stateOf (g.listed query).sort).shown qid := by
  rw [sort_eq_filter h]
  exact shown_restrict (decide_eq_true hqid)

variable {all : Finset NexoraId}

theorem eval_eq_of_scope {accepts : NodeTest} (h : ids ⊆ g.listed query) (h' : all ⊆ g.listed query)
    (hscope : ∀ patterns, .matching patterns ∈ query.clauses → ∀ ms ∈ g.allMatches accepts query patterns,
      (∀ m ∈ ms, ∀ qid ∈ m.nodes, qid ∈ ids) ↔ ∀ m ∈ ms, ∀ qid ∈ m.nodes, qid ∈ all) {Row : Type}
    (e : Evaluator accepts Row) :
    e.eval (snapshotOf query g.stateOf ids.sort) query = e.eval (snapshotOf query g.stateOf all.sort) query := by
  refine e.respects _ _ query fun patterns hclause => ⟨?_, fun ms hms m hm qid hqid => ?_⟩
  · rw [clauseMatches_eq_of accepts h h' (hscope patterns hclause)]
  · obtain ⟨hmatch, hin⟩ := (mem_clauseMatches accepts h patterns ms).mp hms
    have hin' := (hscope patterns hclause ms hmatch).mp hin
    rw [shown_eq_of_mem h (hin m hm qid hqid), shown_eq_of_mem h' (hin' m hm qid hqid)]

theorem subset_listed (hids : g.nodeIds query = .ok ids) (hall : g.allNodeIds = .ok all) :
    ids ⊆ g.listed query ∧ all ⊆ g.listed query := by
  have hlisted : g.listed query = ids ∪ all := by
    rw [listed, hids, hall]
    rfl
  rw [hlisted]
  exact ⟨subset_union_left, subset_union_right⟩

/-! ### Which queries keep their rows -/

/-- **The rows of a scoped query.** Every evaluator finds on the snapshot that a query loads the
rows that it finds on the whole graph, exactly if the nodes of each match are all in the scope of
the query whenever they are all in the graph, and conversely. -/
theorem rows_eq_iff {limit : Nat} {loaded whole : NexoraGraphSnapshot}
    (hloaded : g.fromGraph query limit = .ok loaded) (hall : g.allNodeIds = .ok all)
    (hwhole : g.loadSnapshot query all = .ok whole) (accepts : NodeTest) :
    (∀ (Row : Type) (e : Evaluator accepts Row), e.eval loaded query = e.eval whole query) ↔
      ∀ patterns, .matching patterns ∈ query.clauses → ∀ ms ∈ g.allMatches accepts query patterns,
        (∀ m ∈ ms, ∀ qid ∈ m.nodes, g.InScope query qid) ↔ ∀ m ∈ ms, ∀ qid ∈ m.nodes, qid ∈ all := by
  obtain ⟨ids, hids, rfl⟩ := fromGraph_eq hloaded
  obtain rfl := loadSnapshot_eq hwhole
  obtain ⟨hsub, hsub'⟩ := subset_listed hids hall
  simp only [← mem_nodeIds hids]
  constructor
  · intro hrows patterns hclause ms hms
    have heq := hrows _ (Evaluator.ofClause accepts patterns)
    simp only [Evaluator.ofClause, if_pos hclause, Multiset.coe_eq_coe] at heq
    have hmem := heq.mem_iff (a := ms)
    rw [mem_clauseMatches accepts hsub, mem_clauseMatches accepts hsub', and_congr_right_iff] at hmem
    exact hmem hms
  · intro hscope Row e
    exact eval_eq_of_scope hsub hsub' hscope e

/-! ### Two nodes and an edge -/

def carries : NodeTest := fun pattern labels props =>
  pattern.labels.all (· ∈ labels) && pattern.props.all fun constraint =>
    (props.lookup constraint.1).any fun value => value.eq (literalToPropertyValue constraint.2)

def acquaintance (label : Symbol) : GraphReads where
  labelIndex := LabelIndex.addLabel (LabelIndex.addLabel .empty "Person" ⟨[1]⟩) label ⟨[2]⟩
  queryPropertyIndex := fun _ _ => .ok ∅
  allNodeIds := .ok {⟨[1]⟩, ⟨[2]⟩}
  readNodeState := fun qid => .ok
    (if qid = ⟨[1]⟩ then ⟨["Person"], ∅, [⟨"KNOWS", .out, ⟨[2]⟩⟩], ∅⟩
      else if qid = ⟨[2]⟩ then ⟨[label], ∅, [⟨"KNOWS", .incoming, ⟨[1]⟩⟩], ∅⟩
      else ⟨[], ∅, [], ∅⟩)

def knows (label : Symbol) : Pattern :=
  ⟨⟨some "p", ["Person"], []⟩, [(⟨["KNOWS"], .outgoing, 1, 1⟩, ⟨some "q", [label], []⟩)]⟩

def matchKnows (label : Symbol) : Query := ⟨[.matching [knows label], .other "RETURN p, q"]⟩

theorem sort_acquaintance : ({⟨[1]⟩, ⟨[2]⟩} : Finset NexoraId).sort = [⟨[1]⟩, ⟨[2]⟩] := by
  have hnodup : ([⟨[1]⟩, ⟨[2]⟩] : List NexoraId).Nodup := by decide
  exact (toFinset_sort (· ≤ ·) hnodup).mpr (by decide)

theorem loadSnapshot_acquaintance (label : Symbol) :
    (acquaintance label).loadSnapshot (matchKnows label) {⟨[1]⟩, ⟨[2]⟩} =
      .ok (snapshotOf (matchKnows label) (acquaintance label).stateOf [⟨[1]⟩, ⟨[2]⟩]) := by
  rw [loadSnapshot, sort_acquaintance]
  rfl

theorem rows_eq_two_persons :
    ∃ loaded whole, (acquaintance "Person").fromGraph (matchKnows "Person") 10 = .ok loaded ∧
      (acquaintance "Person").loadSnapshot (matchKnows "Person") {⟨[1]⟩, ⟨[2]⟩} = .ok whole ∧
      ∀ (Row : Type) (e : Evaluator carries Row),
        e.eval loaded (matchKnows "Person") = e.eval whole (matchKnows "Person") := by
  have hids : (acquaintance "Person").nodeIds (matchKnows "Person") = .ok {⟨[1]⟩, ⟨[2]⟩} := by
    rw [nodeIds, if_pos (by decide)]
    exact congrArg ok (by decide)
  have hloaded := loadSnapshot_acquaintance "Person"
  have hscope : ∀ qid, (acquaintance "Person").InScope (matchKnows "Person") qid ↔
      qid ∈ ({⟨[1]⟩, ⟨[2]⟩} : Finset NexoraId) := fun qid => (mem_nodeIds hids qid).symm
  have hfrom : (acquaintance "Person").fromGraph (matchKnows "Person") 10 =
      .ok (snapshotOf (matchKnows "Person") (acquaintance "Person").stateOf [⟨[1]⟩, ⟨[2]⟩]) := by
    rw [fromGraph, hids]
    exact hloaded
  refine ⟨_, _, hfrom, hloaded, (rows_eq_iff hfrom rfl hloaded carries).mpr fun patterns _ ms _ => ?_⟩
  simp [hscope]

/-- A person knows a company. No node has both labels, so nothing is loaded and the row is lost. -/
theorem row_lost_between_labels :
    ∃ loaded whole, (acquaintance "Company").fromGraph (matchKnows "Company") 10 = .ok loaded ∧
      (acquaintance "Company").loadSnapshot (matchKnows "Company") {⟨[1]⟩, ⟨[2]⟩} = .ok whole ∧
      (Evaluator.ofClause carries [knows "Company"]).eval loaded (matchKnows "Company") = 0 ∧
      ((Evaluator.ofClause carries [knows "Company"]).eval whole (matchKnows "Company")).card = 1 := by
  have hids : (acquaintance "Company").nodeIds (matchKnows "Company") = .ok ∅ := by
    rw [nodeIds, if_pos (by decide)]
    exact congrArg ok (by decide)
  have hfrom : (acquaintance "Company").fromGraph (matchKnows "Company") 10 =
      .ok (snapshotOf (matchKnows "Company") (acquaintance "Company").stateOf []) := by
    rw [fromGraph, hids]
    show loadSnapshot _ _ ∅ = _
    rw [loadSnapshot, sort_empty]
    rfl
  exact ⟨_, _, hfrom, loadSnapshot_acquaintance "Company", rfl, rfl⟩

end GraphReads
end Nexora.Cypher
