import Nexora.Graph.Service

/-!
# The property index against the nodes

The property index is to hold each node that is not deleted under the values that its properties
have. It only ever gains entries, and after a restart it is empty. So it agrees with the nodes as
long as a property is set once and stays.
-/

namespace Nexora
open Lib List MutationOp NodeTask PropertyIndex Iff Indexes Finmap

/-! ### The nodes' side -/

def NodeState.HasLive (s : NodeState) (property : Symbol) (value : PropertyValue) : Prop :=
  s.tombstone = none ∧ s.properties.lookup property = some value

/-- A property is set on a node that is not deleted, to the value it has, or for the first time and
by a write that is not too late. A property is removed that the node does not have, or too late, and
a node is deleted that has no properties. -/
def MutationOp.PropertyOk (s : NodeState) (time : EventTime) : MutationOp → Prop
  | .setProperty key value =>
    s.tombstone = none ∧ (s.properties.lookup key = some value ∨ s.properties.lookup key = none ∧ s.wins key time)
  | .removeProperty key => s.tombstone ≠ none ∨ s.properties.lookup key = none ∨ s.wins key time = false
  | .deleteNode _ => s.tombstone ≠ none ∨ ∀ key, s.properties.lookup key = none
  | _ => True

variable {value : PropertyValue} {property : Symbol}

theorem NodeState.hasLive_insertProperty {s : NodeState} {key : Symbol} (hlive : s.tombstone = none)
    (hold : s.properties.lookup key = some value ∨ s.properties.lookup key = none)
    (time : EventTime) {value' : PropertyValue} :
    (s.insertProperty key value time).HasLive property value' ↔
      (key = property ∧ value = value') ∨ s.HasLive property value' := by
  unfold NodeState.HasLive insertProperty
  by_cases hkey : property = key
  · subst hkey
    rw [lookup_insert, Option.some_inj, eq_self, true_and]
    constructor
    · exact fun h => Or.inl h.2
    · rintro (heq | ⟨-, hlookup⟩)
      · exact ⟨hlive, heq⟩
      · rcases hold with hold | hold
        · exact ⟨hlive, Option.some_inj.mp (hold.symm.trans hlookup)⟩
        · rw [hold] at hlookup
          cases hlookup
  · rw [lookup_insert_of_ne _ hkey]
    exact (or_iff_right fun h => hkey h.1.symm).symm

theorem MutationOp.hasLive_apply {s : NodeState} {time : EventTime} {operation : MutationOp}
    (h : operation.PropertyOk s time) :
    (operation.apply s time).1.HasLive property value ↔
      operation = .setProperty property value ∨ s.HasLive property value := by
  cases operation with
  | setProperty key written =>
    obtain ⟨hlive, hold⟩ := h
    rw [apply, setProperty.injEq]
    split
    · exact NodeState.hasLive_insertProperty hlive (hold.imp id And.left) time
    · next hlate =>
      have hstored := hold.resolve_right fun h => hlate h.2
      refine (or_iff_right_of_imp ?_).symm
      rintro ⟨rfl, rfl⟩
      exact ⟨hlive, hstored⟩
  | removeProperty key =>
    rw [or_iff_right (by rintro ⟨⟩), apply]
    split
    · next hwins =>
      unfold NodeState.HasLive NodeState.removeProperty
      rcases h with hdead | hnone | hlate
      · exact iff_of_false (fun h => hdead h.1) fun h => hdead h.1
      · by_cases hkey : property = key
        · rw [hkey, lookup_erase, hnone]
        · rw [lookup_erase_ne hkey]
      · rw [hlate] at hwins
        cases hwins
    · rfl
  | addEdge edge =>
    rw [or_iff_right (by rintro ⟨⟩), fst_apply_addEdge]
    rfl
  | removeEdge edge =>
    rw [or_iff_right (by rintro ⟨⟩), fst_apply_removeEdge]
    rfl
  | addLabel label =>
    rw [or_iff_right (by rintro ⟨⟩), fst_apply_addLabel]
    rfl
  | removeLabel label =>
    rw [or_iff_right (by rintro ⟨⟩), fst_apply_removeLabel]
    rfl
  | edgePropertySet edgeType dst key written =>
    rw [or_iff_right (by rintro ⟨⟩)]
    rfl
  | deleteNode tombstone =>
    rw [or_iff_right (by rintro ⟨⟩)]
    refine iff_of_false (fun hlive => by cases hlive.1) fun hlive => ?_
    rcases h with hdead | hnone
    · exact hdead hlive.1
    · have hlookup := hlive.2
      rw [hnone property] at hlookup
      cases hlookup

def NodeTask.PropertiesOk (task : NodeTask) (operations : List (MutationOp × Option EventTime))
    (eventTime : Option EventTime) : Prop :=
  Along (CommitDraft.step (task.nextEventTime + 1) eventTime)
    (fun d operation => operation.1.PropertyOk d.next (d.opTime (task.nextEventTime + 1) eventTime operation.2))
    ⟨task.state, [], 0, false, task.nextEventTime + 1⟩ operations

theorem NodeTask.hasLive_draft {task : NodeTask} {operations : List (MutationOp × Option EventTime)}
    {eventTime : Option EventTime} (h : task.PropertiesOk operations eventTime) :
    (task.draft operations eventTime).next.HasLive property value ↔
      .setProperty property value ∈ operations.map Prod.fst ∨ task.state.HasLive property value := by
  have hrun := @run_iff_exists _ _ _ _ (fun d => d.next.HasLive property value)
    (fun operation => operation.1 = .setProperty property value) (fun d operation hok => hasLive_apply hok) _ _ h
  rw [mem_map]
  exact hrun

/-! ### The index's side -/

/-- The tiers are in step, and no node is twice under a value. -/
structure PropertyIndex.Sound (S : Serde) (index : PropertyIndex) : Prop where
  inSync : index.InSync S
  nodup : ∀ key, ((index.findWarm S key).getD []).Nodup

/-- The index has room for a value that is set, and the value is told apart from all others. -/
def MutationOp.Fits (S : Serde) (indexes : Indexes) : MutationOp → Prop
  | .setProperty key value => indexes.property.HasRoom S ⟨key, value⟩ ∧ value.Distinguished S
  | _ => True

namespace Indexes
variable {S : Serde} {indexes : Indexes} {qid : NexoraId}
variable {operation : MutationOp} {property : Symbol} {value : PropertyValue} {qid' : NexoraId}

theorem sound_sideEffect (h : indexes.property.Sound S) (hfits : operation.Fits S indexes) :
    (indexes.sideEffect S qid operation).property.Sound S := by
  cases operation with
  | setProperty key value =>
    exact ⟨h.inSync.insert hfits.1 hfits.2, nodup_findWarm_insert hfits.1 h.nodup⟩
  | _ => exact h

theorem mem_sideEffect (hfits : operation.Fits S indexes)
    : qid' ∈ ((indexes.sideEffect S qid operation).property.findWarm S ⟨property, value⟩).getD [] ↔
      (operation = .setProperty property value ∧ qid' = qid) ∨
        qid' ∈ (indexes.property.findWarm S ⟨property, value⟩).getD [] := by
  cases operation with
  | setProperty key written =>
    rw [setProperty.injEq, eq_comm, @eq_comm _ written, and_assoc]
    exact mem_findWarm_insert hfits.1 hfits.2
  | _ => exact (or_iff_right fun h => nomatch h.1).symm

def AllFit (S : Serde) (qid : NexoraId) (indexes : Indexes) (operations : List MutationOp) : Prop :=
  Along (sideEffect S qid) (fun indexes operation => operation.Fits S indexes) indexes operations

theorem mem_applyBatchSideEffects {operations : List MutationOp}
    (hfit : AllFit S qid indexes operations) :
    qid' ∈ ((indexes.applyBatchSideEffects S qid operations).property.findWarm S ⟨property, value⟩).getD [] ↔
      (.setProperty property value ∈ operations ∧ qid' = qid) ∨
        qid' ∈ (indexes.property.findWarm S ⟨property, value⟩).getD [] := by
  have hrun := @run_iff_exists _ _ _ _
    (fun indexes : Indexes => qid' ∈ (indexes.property.findWarm S ⟨property, value⟩).getD [])
    (fun operation => operation = .setProperty property value ∧ qid' = qid)
      (fun _ _ hfits => mem_sideEffect hfits) _ _ hfit
  refine hrun.trans (or_congr ?_ Iff.rfl)
  exact ⟨fun ⟨_, hmem, heq, hqid⟩ => ⟨heq ▸ hmem, hqid⟩, fun ⟨hmem, hqid⟩ => ⟨_, hmem, rfl, hqid⟩⟩

end Indexes

namespace GraphService

/-! ### Runs -/

/-- Every query returns exactly the nodes that are not deleted and have the value, each once. -/
def PropertiesAgree (S : Serde) (s : GraphService) : Prop :=
  ∀ orders property value, (s.indexes.property.query S orders property value).2.Nodup ∧
    ∀ qid, qid ∈ (s.indexes.property.query S orders property value).2 ↔ (s.nodes qid).state.HasLive property value

def PropertyStepOk (S : Serde) (s : GraphService) : GraphStep → Prop
  | .setProperty qid key value logged =>
    logged → (MutationOp.setProperty key value).PropertyOk (s.nodes qid).state ((s.nodes qid).nextEventTime + 1) ∧
      (MutationOp.setProperty key value).Fits S s.indexes
  | .removeProperty qid key logged =>
    logged → (MutationOp.removeProperty key).PropertyOk (s.nodes qid).state ((s.nodes qid).nextEventTime + 1)
  | .deleteNode qid requestId tombstone _ =>
    (s.nodes qid).findReceipt requestId = none →
      (MutationOp.deleteNode tombstone).PropertyOk (s.nodes qid).state ((s.nodes qid).nextEventTime + 1)
  | .commitItem qid operations eventTime _ logged =>
    (s.nodes qid).findReceipt s.nextRequestId = none ∧
      (logged → (s.nodes qid).PropertiesOk operations eventTime) ∧
      (logged = false → ∀ operation ∈ operations, ∀ tombstone, operation.1 ≠ .deleteNode tombstone)
  | .applySideEffects i => ∀ item ∈ s.pending[i]?, AllFit S item.1 s.indexes item.2
  | .dropItem i => ∀ item ∈ s.pending[i]?, ∀ key value, .setProperty key value ∉ item.2
  | .restart _ recovered _ => ∀ qid property value, ¬ (recovered qid).1.HasLive property value
  | _ => True

/-- With the entries that are still to come the index agrees with the nodes. -/
structure PropertyInv (S : Serde) (s : GraphService) : Prop where
  sound : s.indexes.property.Sound S
  agree : ∀ property value qid, (s.nodes qid).state.HasLive property value ↔
    .setProperty property value ∈ operationsOf s.pending qid ∨
      qid ∈ (s.indexes.property.findWarm S ⟨property, value⟩).getD []

variable {S : Serde} {s s' : GraphService} {qid : NexoraId} {logged : Bool}

theorem propertyInv_new (S : Serde) (clock : NexoraId → EventTime) : (new clock).PropertyInv S where
  sound := ⟨fun _ hentry => absurd hentry not_mem_nil, fun _ => nodup_nil⟩
  agree := fun _ _ _ =>
    iff_of_false (fun h => nomatch h.2) fun h => h.elim not_mem_nil not_mem_nil

theorem PropertyInv.propertiesAgree (h : s.PropertyInv S) (hpending : s.pending = []) :
    s.PropertiesAgree S := by
  intro orders property value
  rw [h.sound.inSync.query_eq orders]
  refine ⟨h.sound.nodup _, fun qid => ?_⟩
  simp [h.agree, hpending, operationsOf_nil]

theorem PropertyInv.congr (h : s.PropertyInv S) (hpending : s'.pending = s.pending)
    (hindex : s'.indexes.property = s.indexes.property)
    (hstate : ∀ qid property value, (s'.nodes qid).state.HasLive property value ↔
    (s.nodes qid).state.HasLive property value) :
    s'.PropertyInv S where
  sound := hindex ▸ h.sound
  agree := fun property value qid => by rw [hstate, hpending, hindex]; exact h.agree property value qid

variable {nodes : NexoraId → NodeTask} {task : NodeTask}

theorem hasLive_update_iff {gained : Symbol → PropertyValue → Prop}
    (h : ∀ property value, task.state.HasLive property value ↔
      gained property value ∨ (nodes qid).state.HasLive property value) (src : NexoraId) (property : Symbol)
    (value : PropertyValue) : (Function.update nodes qid task src).state.HasLive property value ↔
      (gained property value ∧ src = qid) ∨ (nodes src).state.HasLive property value := by
  by_cases hsrc : src = qid
  · rw [hsrc, Function.update_self, eq_self, and_true]
    exact h property value
  · rw [Function.update_of_ne hsrc, or_iff_right fun h => hsrc h.2]

theorem hasLive_update
    (h : ∀ property value, task.state.HasLive property value ↔ (nodes qid).state.HasLive property value) (src : NexoraId)
    (property : Symbol) (value : PropertyValue) :
    (Function.update nodes qid task src).state.HasLive property value ↔
    (nodes src).state.HasLive property value :=
  (hasLive_update_iff (fun property value => (h property value).trans (or_iff_right not_false).symm) src property
    value).trans (or_iff_right And.left)

section
variable (h : s.PropertyInv S)
include h
variable {after : Indexes → Indexes} {requestId : Nat}

theorem PropertyInv.command (operation : MutationOp)
    (hok : logged → operation.PropertyOk (s.nodes qid).state ((s.nodes qid).nextEventTime + 1))
    (hset : ∀ key value, operation ≠ .setProperty key value)
    (hdelete : ∀ tombstone, operation ≠ .deleteNode tombstone)
    (hafter : (after s.indexes).property = s.indexes.property) :
    (s.command qid operation logged after).PropertyInv S := by
  cases logged with
  | false =>
    exact h.congr rfl rfl (hasLive_update fun _ _ => by rw [state_drafted_singleton hdelete])
  | true =>
    refine h.congr rfl hafter (hasLive_update fun property value => ?_)
    exact (hasLive_apply (hok rfl)).trans (or_iff_right (hset property value))

theorem PropertyInv.mutate (operation : MutationOp)
    (hok : operation.PropertyOk (s.nodes qid).state ((s.nodes qid).nextEventTime + 1))
    (hset : ∀ key value, operation ≠ .setProperty key value)
    (hdelete : ∀ tombstone, operation ≠ .deleteNode tombstone)
    (hafter : (after s.indexes).property = s.indexes.property) :
    (s.mutate qid ⟨requestId, [(operation, none)], none, true⟩ logged after).PropertyInv S := by
  cases hfind : (s.nodes qid).findReceipt requestId with
  | some entry =>
    rw [mutate_of_remembered hfind]
    exact h.congr rfl hafter (hasLive_update fun _ _ => Iff.rfl)
  | none =>
    cases logged with
    | false =>
      rw [mutate_of_refused hfind]
      exact h.congr rfl rfl (hasLive_update fun _ _ => by rw [state_drafted_singleton hdelete])
    | true =>
      rw [mutate_of_logged hfind]
      refine h.congr rfl hafter (hasLive_update fun property value => ?_)
      exact (hasLive_apply hok).trans (or_iff_right (hset property value))

theorem PropertyInv.setProperty {key : Symbol} {value : PropertyValue}
    (hok : s.PropertyStepOk S (.setProperty qid key value logged)) :
    (s.setProperty S qid key value logged).PropertyInv S := by
  cases logged with
  | false =>
    have hkept : ∀ tombstone, MutationOp.setProperty key value ≠ .deleteNode tombstone := nofun
    exact h.congr rfl rfl (hasLive_update fun _ _ => by rw [state_drafted_singleton hkept])
  | true =>
    obtain ⟨hwrite, hfits⟩ := hok rfl
    refine ⟨sound_sideEffect h.sound hfits, fun property value' src => ?_⟩
    have hnode : ∀ property value',
        ((s.nodes qid).install ((s.nodes qid).draft [(.setProperty key value, none)] none)).state.HasLive property value' ↔
          MutationOp.setProperty key value = .setProperty property value' ∨ (s.nodes qid).state.HasLive property value' :=
      fun _ _ => MutationOp.hasLive_apply hwrite
    refine (hasLive_update_iff hnode src property value').trans ?_
    rw [h.agree, or_left_comm]
    exact or_congr Iff.rfl (Indexes.mem_sideEffect hfits).symm

theorem PropertyInv.deleteNode {tombstone : TombstoneRecord}
    (hok : s.PropertyStepOk S (.deleteNode qid requestId tombstone logged)) :
    (s.deleteNode qid requestId tombstone logged).PropertyInv S := by
  unfold GraphService.deleteNode
  cases hfind : (s.nodes qid).findReceipt requestId with
  | some entry =>
    rw [mutate_of_remembered hfind]
    exact h.congr rfl rfl (hasLive_update fun _ _ => Iff.rfl)
  | none =>
    have hvalues : ∀ property value, ¬ (s.nodes qid).state.HasLive property value := by
      intro property value hlive
      have hgone := (hasLive_apply (hok hfind)).mpr (Or.inr hlive)
      exact nomatch hgone.1
    cases logged with
    | false =>
      rw [mutate_of_refused hfind]
      exact h.congr rfl rfl
        (hasLive_update fun property value => iff_of_false (fun hlive => nomatch hlive.1) (hvalues property value))
    | true =>
      rw [mutate_of_logged hfind]
      exact h.congr rfl rfl
        (hasLive_update fun property value => iff_of_false (fun hlive => nomatch hlive.1) (hvalues property value))

theorem PropertyInv.commitItem {operations : List (MutationOp × Option EventTime)}
    {eventTime : Option EventTime} {awaitDurable : Bool}
    (hok : s.PropertyStepOk S (.commitItem qid operations eventTime awaitDurable logged)) :
    (s.commitItem qid operations eventTime awaitDurable logged).PropertyInv S := by
  obtain ⟨hnew, hoperations, hkept⟩ := hok
  cases logged with
  | false =>
    rw [commitItem_of_refused hnew]
    exact h.congr rfl rfl (hasLive_update fun _ _ => by rw [state_drafted (hkept rfl)])
  | true =>
    rw [commitItem_of_logged hnew]
    refine ⟨h.sound, fun property value src => ?_⟩
    refine (hasLive_update_iff (fun property value => hasLive_draft (hoperations rfl)) src property value).trans ?_
    rw [h.agree, operationsOf_append, operationsOf_cons, operationsOf_nil, append_nil, mem_append, or_assoc,
      or_left_comm]
    refine or_congr Iff.rfl (or_congr ?_ Iff.rfl)
    rw [mem_ite_nil_right, and_comm, eq_comm]

theorem PropertyInv.applySideEffects {i : Nat} (hok : s.PropertyStepOk S (.applySideEffects i)) :
    (s.applySideEffects S i).PropertyInv S := by
  unfold GraphService.applySideEffects
  split
  · exact h
  · next qid operations hitem =>
    have hfit := hok _ hitem
    have hsound := @run_invariant _ _ _ _ (fun indexes : Indexes => indexes.property.Sound S)
      (fun _ _ h hfits => sound_sideEffect h hfits) _ h.sound _ hfit
    refine ⟨hsound, fun property value src => ?_⟩
    have hagree := h.agree property value src
    rw [eq_take_append_cons_drop hitem, operationsOf_append, operationsOf_cons, mem_append, mem_append] at hagree
    have hmine : MutationOp.setProperty property value ∈ (if qid = src then operations else []) ↔
        .setProperty property value ∈ operations ∧ src = qid := by
      rw [mem_ite_nil_right, and_comm, eq_comm]
    show (s.nodes src).state.HasLive property value ↔ _ ∈ operationsOf (s.pending.eraseIdx i) src ∨ _
    rw [hagree, hmine, mem_applyBatchSideEffects hfit, eraseIdx_eq_take_drop_succ, operationsOf_append,
      mem_append]
    simp only [or_assoc, or_left_comm]

theorem PropertyInv.dropItem {i : Nat} (hok : s.PropertyStepOk S (.dropItem i)) :
    PropertyInv S { s with pending := s.pending.eraseIdx i } := by
  refine ⟨h.sound, fun property value src => ?_⟩
  have hagree := h.agree property value src
  show (s.nodes src).state.HasLive property value ↔ _ ∈ operationsOf (s.pending.eraseIdx i) src ∨ _
  cases hitem : s.pending[i]? with
  | none => rw [eraseIdx_of_length_le (getElem?_eq_none_iff.mp hitem), hagree]
  | some item =>
    have hnone : MutationOp.setProperty property value ∉ (if item.1 = src then item.2 else []) := by
      split
      · exact hok item hitem property value
      · exact not_mem_nil
    rw [eq_take_append_cons_drop hitem, operationsOf_append, operationsOf_cons, mem_append, mem_append,
      or_iff_right hnone] at hagree
    rw [hagree, eraseIdx_eq_take_drop_succ, operationsOf_append, mem_append]

theorem PropertyInv.step {label : GraphStep} (hok : s.PropertyStepOk S label) :
    (s.step S label).PropertyInv S := by
  cases label with
  | setProperty qid key value logged => exact whenIdle_of h fun _ => h.setProperty hok
  | removeProperty qid key logged => exact whenIdle_of h fun _ => h.command (.removeProperty key) hok nofun nofun rfl
  | addEdge qid edge logged => exact whenIdle_of h fun _ => h.command (.addEdge edge) (fun _ => trivial) nofun nofun rfl
  | removeEdge qid edge logged =>
    exact whenIdle_of h fun _ => h.command (.removeEdge edge) (fun _ => trivial) nofun nofun rfl
  | addLabel qid label requestId logged => exact whenIdle_of h fun _ => h.mutate (.addLabel label) trivial nofun nofun rfl
  | removeLabel qid label requestId logged =>
    exact whenIdle_of h fun _ => h.mutate (.removeLabel label) trivial nofun nofun rfl
  | deleteNode qid requestId tombstone logged => exact whenIdle_of h fun _ => h.deleteNode hok
  | commitItem qid operations eventTime awaitDurable logged => exact h.commitItem hok
  | applySideEffects i => exact h.applySideEffects hok
  | dropItem i => exact h.dropItem hok
  | queryPropertyIndex property value orders =>
    have hwarm : ∀ key, (s.indexes.property.query S orders property value).1.findWarm S key =
        s.indexes.property.findWarm S key := findWarm_query orders
    refine ⟨⟨h.sound.inSync.query orders, fun key => ?_⟩, fun property' value' qid => ?_⟩
    · exact (congrArg (fun nodes => (nodes.getD []).Nodup) (hwarm key)).mpr (h.sound.nodup key)
    · exact (h.agree property' value' qid).trans
        (or_congr Iff.rfl (iff_of_eq (congrArg (fun nodes => qid ∈ nodes.getD []) (hwarm _).symm)))
  | respawn qid now recoveredMaxEventTime => exact h.congr rfl rfl (hasLive_update fun _ _ => Iff.rfl)
  | restart clock recovered persisted =>
    refine ⟨(propertyInv_new S clock).sound, fun property value qid => ?_⟩
    exact iff_of_false (hok qid property value) fun h => h.elim not_mem_nil not_mem_nil

end

/-- **The property index agrees with the nodes** after every run whose steps all meet the condition,
once the last batch has returned. -/
theorem propertiesAgree_of_along (S : Serde) (clock : NexoraId → EventTime) {steps : List GraphStep}
    (halong : Along (step S) (PropertyStepOk S) (new clock) steps)
    (hreturned : (run (step S) (new clock) steps).pending = []) :
    (run (step S) (new clock) steps).PropertiesAgree S := by
  have hstep : ∀ (s : GraphService) (label : GraphStep), s.PropertyInv S → s.PropertyStepOk S label →
      (s.step S label).PropertyInv S := fun s label h hok => h.step hok
  exact (run_invariant hstep (propertyInv_new S clock) halong).propertiesAgree hreturned

/-- One node gets the value by a call and another by a batch. -/
theorem propertiesAgree_two_nodes : (run (step (sampleLibraries [])) (new fun _ => 10)
      [.setProperty ⟨[1]⟩ "k" (.boolean true) true, .commitItem ⟨[2]⟩ [(.setProperty "k" (.boolean true), some 5)] none true true,
        .applySideEffects 0]).PropertiesAgree (sampleLibraries []) := by
  have hvalue : (PropertyValue.boolean true).Distinguished (sampleLibraries []) :=
    PropertyValue.distinguished_of_discriminant_lt _ (by decide)
  have halong : Along (step (sampleLibraries [])) (PropertyStepOk (sampleLibraries [])) (new fun _ => 10)
      [.setProperty ⟨[1]⟩ "k" (.boolean true) true, .commitItem ⟨[2]⟩ [(.setProperty "k" (.boolean true), some 5)] none true true,
        .applySideEffects 0] := by
    refine ⟨fun _ => ⟨⟨rfl, Or.inr ⟨rfl, rfl⟩⟩, Or.inr (by decide), hvalue⟩,
      ⟨rfl, fun _ => ⟨⟨rfl, Or.inr ⟨rfl, rfl⟩⟩, trivial⟩, nofun⟩, fun item hitem => ?_, trivial⟩
    cases hitem
    exact ⟨⟨Or.inr (by decide), hvalue⟩, trivial⟩
  exact propertiesAgree_of_along _ _ halong rfl

/-- A property is set to another value: the index still has the node under the value that it had. -/
theorem old_value_left_in_index :
    let s := run (step (sampleLibraries [])) (new fun _ => 10)
      [.setProperty ⟨[1]⟩ "k" (.boolean true) true, .setProperty ⟨[1]⟩ "k" (.boolean false) true]
    s.pending = [] ∧ ¬ s.PropertiesAgree (sampleLibraries []) := by
  refine ⟨rfl, fun h => ?_⟩
  obtain ⟨-, hnodes⟩ := h ⟨⟨id, fun _ => .refl _⟩, ⟨id, fun _ => .refl _⟩⟩ "k" (.boolean true)
  have hlookup := ((hnodes ⟨[1]⟩).mp (by decide)).2
  cases hlookup

end GraphService
end Nexora
