import Nexora.Graph.NodeTask
import Nexora.Lib.Fold

/-!
# Replaying events

`wake_node` folds the later events of the journal into the snapshot, and resolves properties by
event time as the commit path does. Seen part by part, an event overwrites the parts it names, so
the last one to write a part decides what it holds.
-/

namespace Nexora
open Lib TimedEvent MutationOp Finmap NodeState

/-! ### The fold of `wake_node` -/

namespace NodeState
variable (s : NodeState)

/-- The entry of an edge goes with its last property. -/
def removeEdgeProperty (edgeType : Symbol) (target : NexoraId) (key : Symbol) : NodeState :=
  match s.edgeProperties.lookup (edgeType, target) with
  | none => s
  | some props =>
    { s with
      edgeProperties :=
        if (props.erase key).keys = ∅ then s.edgeProperties.erase (edgeType, target)
        else s.edgeProperties.insert (edgeType, target) (props.erase key) }

def applyEvent (e : TimedEvent NodeChangeEvent) : NodeState :=
  match e.event with
  | .propertySet key value => if s.wins key e.time then s.insertProperty key value e.time else s
  | .propertyRemoved key _ => if s.wins key e.time then s.removeProperty key e.time else s
  | .edgeAdded edge => s.insertEdge edge
  | .edgeRemoved edge => s.removeEdge edge
  | .labelAdded label => s.insertLabel label
  | .labelRemoved label => s.removeLabel label
  | .edgePropertySet edgeType target key value => s.insertEdgeProperty edgeType target key value
  | .edgePropertyRemoved edgeType target key => s.removeEdgeProperty edgeType target key
  | .nodeDeleted tombstone => { s with tombstone := some tombstone }
  | .nodeRestored => { s with tombstone := none }

def applyEvents (events : NodeEvents) : NodeState := events.foldl applyEvent s

@[simp]
theorem applyEvents_nil : s.applyEvents [] = s := rfl

@[simp]
theorem applyEvents_cons (e : TimedEvent NodeChangeEvent) (events : NodeEvents) :
    s.applyEvents (e :: events) = (s.applyEvent e).applyEvents events := rfl

theorem applyEvents_append (first second : NodeEvents) :
    s.applyEvents (first ++ second) = (s.applyEvents first).applyEvents second := List.foldl_append

end NodeState

/-! ### The parts of a node -/

/-- What an event can write. An edge has an entry when it ever had a property. -/
inductive NodePart where
  | label (label : Symbol)
  | tombstone
  | property (key : Symbol)
  | edge (edge : HalfEdge)
  | edgeEntry (edge : Symbol × NexoraId)
  | edgeProperty (edge : Symbol × NexoraId) (key : Symbol)

abbrev NodePart.Value : NodePart → Type
  | .label _ => Bool
  | .tombstone => Option TombstoneRecord
  | .property _ => Option PropertyValue × Option EventTime
  | .edge _ => Bool
  | .edgeEntry _ => Bool
  | .edgeProperty _ _ => Option PropertyValue

namespace NodeState

def read (s : NodeState) : (part : NodePart) → part.Value
  | .label label => decide (label ∈ s.labels)
  | .tombstone => s.tombstone
  | .property key => (s.properties.lookup key, s.propertyTimes.lookup key)
  | .edge edge => decide (edge ∈ s.edges)
  | .edgeEntry edge => (s.edgeProperties.lookup edge).isSome
  | .edgeProperty edge key => (s.edgeProperties.lookup edge).bind fun entry => entry.lookup key

theorem ext_read {s t : NodeState} (h : ∀ part, s.read part = t.read part) : s = t := by
  have hedge : ∀ edge, s.edgeProperties.lookup edge = t.edgeProperties.lookup edge := by
    intro edge
    have hentry : (s.edgeProperties.lookup edge).isSome = (t.edgeProperties.lookup edge).isSome := h (.edgeEntry edge)
    have hprop : ∀ key, ((s.edgeProperties.lookup edge).bind fun entry => entry.lookup key) =
        (t.edgeProperties.lookup edge).bind fun entry => entry.lookup key := fun key => h (.edgeProperty edge key)
    cases hs : s.edgeProperties.lookup edge <;> cases ht : t.edgeProperties.lookup edge <;>
      simp only [hs, ht] at hentry hprop
    · rfl
    · cases hentry
    · cases hentry
    · exact congrArg some (ext_lookup hprop)
  refine NodeState.ext ?_ (h .tombstone) ?_ ?_ ?_ (Finmap.ext_lookup hedge)
  · exact Finset.ext fun label => decide_eq_decide.mp (h (.label label))
  · exact Finmap.ext_lookup fun key => congrArg Prod.fst (h (.property key))
  · exact ext_lookup fun key => congrArg Prod.snd (h (.property key))
  · exact Finset.ext fun edge => decide_eq_decide.mp (h (.edge edge))

end NodeState
variable (e : TimedEvent NodeChangeEvent)

def TimedEvent.writes (part : NodePart) : Option part.Value :=
  match e.event, part with
  | .propertySet key value, .property k => if k = key then some (some value, some e.time) else none
  | .propertyRemoved key _, .property k => if k = key then some (none, some e.time) else none
  | .edgeAdded edge, .edge x => if x = edge then some true else none
  | .edgeRemoved edge, .edge x => if x = edge then some false else none
  | .labelAdded label, .label x => if x = label then some true else none
  | .labelRemoved label, .label x => if x = label then some false else none
  | .edgePropertySet edgeType target _ _, .edgeEntry x => if x = (edgeType, target) then some true else none
  | .edgePropertySet edgeType target key value, .edgeProperty x k =>
      if x = (edgeType, target) ∧ k = key then some (some value) else none
  | .nodeDeleted tombstone, .tombstone => some (some tombstone)
  | .nodeRestored, .tombstone => some none
  | _, _ => none

/-- What an event makes of a part. Properties are registers with a time. -/
def TimedEvent.update (part : NodePart) (v : part.Value) : part.Value :=
  match e.event, part with
  | .propertySet key value, .property k => if k = key then lwwWrite (some value) e.time v else v
  | .propertyRemoved key _, .property k => if k = key then lwwWrite none e.time v else v
  | _, part => (e.writes part).getD v

def TimedEvent.Emitted : Prop :=
  match e.event with
  | .edgePropertyRemoved _ _ _ => False
  | _ => True

/-- An event that a commit can emit in this state: a property event wins. -/
def TimedEvent.EmittedAt (s : NodeState) (e : TimedEvent NodeChangeEvent) : Prop :=
  match e.event with
  | .propertySet key _ => s.wins key e.time = true
  | .propertyRemoved key _ => s.wins key e.time = true
  | .edgePropertyRemoved _ _ _ => False
  | _ => True

section Lookup
variable {K V : Type} [DecidableEq K]

theorem lookup_insert_eq (m : Finmap fun _ : K => V) (a x : K) (b : V) :
    (m.insert a b).lookup x = if x = a then some b else m.lookup x := by
  split
  · next h => rw [h, lookup_insert]
  · next h => rw [lookup_insert_of_ne _ h]

theorem lookup_erase_eq (m : Finmap fun _ : K => V) (a x : K) :
    (m.erase a).lookup x = if x = a then none else m.lookup x := by
  split
  · next h => rw [h, lookup_erase]
  · next h => rw [lookup_erase_ne h]

end Lookup

namespace NodeState
variable (s : NodeState)

theorem wins_eq (key : Symbol) (time : EventTime) :
    s.wins key time = lwwWins (s.read (.property key)).2 time := by
  simp only [wins, read, lwwWins]
  cases s.propertyTimes.lookup key with
  | none => rfl
  | some existing => exact decide_eq_decide.mpr Iff.rfl

variable {key : Symbol} {time : EventTime}

theorem lwwWrite_read (hwins : s.wins key time = true) (value : Option PropertyValue) (k : Symbol) :
    (if k = key then value else s.properties.lookup k, if k = key then some time else s.propertyTimes.lookup k) =
      if k = key then lwwWrite value time (s.read (.property k)) else s.read (.property k) := by
  by_cases h : k = key
  · subst h
    simp [lwwWrite_of_wins (s.wins_eq k time ▸ hwins)]
  · rw [if_neg h, if_neg h, if_neg h]
    rfl

theorem read_insertProperty (hwins : s.wins key time = true) (value : PropertyValue) (k : Symbol) :
    (s.insertProperty key value time).read (.property k) =
      if k = key then lwwWrite (some value) time (s.read (.property k)) else s.read (.property k) := by
  rw [← s.lwwWrite_read hwins, ← lookup_insert_eq, ← lookup_insert_eq]
  rfl

theorem read_removeProperty (hwins : s.wins key time = true) (k : Symbol) :
    (s.removeProperty key time).read (.property k) =
      if k = key then lwwWrite none time (s.read (.property k)) else s.read (.property k) := by
  rw [← s.lwwWrite_read hwins, ← lookup_erase_eq, ← lookup_insert_eq]
  rfl

theorem read_of_not_wins (hwins : ¬ s.wins key time = true) (value : Option PropertyValue)
    (k : Symbol) :
    s.read (.property k) = if k = key then lwwWrite value time (s.read (.property k)) else s.read (.property k) := by
  by_cases h : k = key
  · subst h
    rw [if_pos rfl, lwwWrite_of_not_wins (s.wins_eq k time ▸ hwins)]
  · rw [if_neg h]

theorem read_insertEdgeProperty (edgeType : Symbol) (dst : NexoraId) (key : Symbol)
    (value : PropertyValue) (edge : Symbol × NexoraId) (k : Symbol) :
    (s.insertEdgeProperty edgeType dst key value).read (.edgeProperty edge k) =
      if edge = (edgeType, dst) ∧ k = key then some value else s.read (.edgeProperty edge k) := by
  change ((s.edgeProperties.insert (edgeType, dst) _).lookup edge).bind (fun entry => entry.lookup k) = _
  rw [lookup_insert_eq]
  by_cases hedge : edge = (edgeType, dst)
  · subst hedge
    rw [if_pos rfl, Option.bind_some, lookup_insert_eq]
    by_cases hkey : k = key
    · rw [if_pos hkey, if_pos ⟨rfl, hkey⟩]
    · rw [if_neg hkey, if_neg fun h => hkey h.2]
      cases hlookup : s.edgeProperties.lookup (edgeType, dst) <;> simp [read, hlookup]
  · rw [if_neg hedge, if_neg fun h => hedge h.1]
    rfl

theorem read_applyEvent {e : TimedEvent NodeChangeEvent} (he : e.Emitted) (part : NodePart) :
    (s.applyEvent e).read part = e.update part (s.read part) := by
  obtain ⟨event, time⟩ := e
  cases event with
  | propertySet key value =>
    simp only [applyEvent]
    split
    · next hwins =>
      cases part with
      | property k => exact s.read_insertProperty hwins value k
      | _ => rfl
    · next hwins =>
      cases part with
      | property k => exact s.read_of_not_wins hwins (some value) k
      | _ => rfl
  | propertyRemoved key previousValue =>
    simp only [applyEvent]
    split
    · next hwins =>
      cases part with
      | property k => exact s.read_removeProperty hwins k
      | _ => rfl
    · next hwins =>
      cases part with
      | property k => exact s.read_of_not_wins hwins none k
      | _ => rfl
  | labelAdded label =>
    cases part with
    | label x => by_cases h : x = label <;> simp [applyEvent, insertLabel, read, update, writes, h]
    | _ => rfl
  | labelRemoved label =>
    cases part with
    | label x => by_cases h : x = label <;> simp [applyEvent, removeLabel, read, update, writes, h]
    | _ => rfl
  | edgeAdded edge =>
    cases part with
    | edge x => by_cases h : x = edge <;> simp [applyEvent, insertEdge, read, update, writes, h]
    | _ => rfl
  | edgeRemoved edge =>
    cases part with
    | edge x => by_cases h : x = edge <;> simp [applyEvent, removeEdge, read, update, writes, h]
    | _ => rfl
  | edgePropertySet edgeType target key value =>
    cases part with
    | edgeEntry edge =>
      by_cases h : edge = (edgeType, target) <;>
        simp [applyEvent, insertEdgeProperty, read, update, writes, lookup_insert_eq, h]
    | edgeProperty edge k =>
      refine (s.read_insertEdgeProperty edgeType target key value edge k).trans ?_
      by_cases h : edge = (edgeType, target) ∧ k = key <;> simp [update, writes, h]
    | _ => rfl
  | edgePropertyRemoved edgeType target key => exact absurd he id
  | nodeDeleted | nodeRestored => cases part <;> rfl

end NodeState

/-! ### Folding events again -/

namespace TimedEvent

theorem getD_once {V : Type} (w : Option V) (v : V) : w.getD (w.getD v) = w.getD v := by
  cases w <;> rfl

theorem getD_between {V : Type} (w x : Option V) (v : V) :
    w.getD (x.getD (w.getD v)) = w.getD (x.getD v) := by
  cases w <;> rfl

variable (e : TimedEvent NodeChangeEvent)

def propertyWrite (k : Symbol) : Option (Option PropertyValue) :=
  match e.event with
  | .propertySet key value => if k = key then some (some value) else none
  | .propertyRemoved key _ => if k = key then some none else none
  | _ => none

theorem update_property (k : Symbol) (v : (NodePart.property k).Value) : e.update (.property k) v =
      match e.propertyWrite k with
      | some value => lwwWrite value e.time v
      | none => v := by
  obtain ⟨event, time⟩ := e
  cases event with
  | propertySet key value | propertyRemoved key previousValue =>
    by_cases h : k = key
    · simp only [update, propertyWrite, if_pos h]
    · simp only [update, propertyWrite, if_neg h]
  | _ => rfl

theorem update_other {part : NodePart} (h : ∀ k, part ≠ .property k) (v : part.Value) :
    e.update part v = (e.writes part).getD v := by
  obtain ⟨event, time⟩ := e
  cases part with
  | property k => exact absurd rfl (h k)
  | _ => cases event <;> rfl

theorem update_once (part : NodePart) (v : part.Value) :
    e.update part (e.update part v) = e.update part v := by
  by_cases h : ∃ k, part = .property k
  · obtain ⟨k, rfl⟩ := h
    simp only [update_property]
    cases e.propertyWrite k with
    | none => rfl
    | some value => exact lwwWrite_once value e.time v
  · have hother : ∀ k, part ≠ .property k := fun k hk => h ⟨k, hk⟩
    simp only [e.update_other hother, getD_once]

theorem update_between (a b : TimedEvent NodeChangeEvent) (part : NodePart) (v : part.Value) :
    a.update part (b.update part (a.update part v)) = a.update part (b.update part v) := by
  by_cases h : ∃ k, part = .property k
  · obtain ⟨k, rfl⟩ := h
    simp only [update_property]
    cases a.propertyWrite k with
    | none => rfl
    | some value =>
      cases b.propertyWrite k with
      | none => exact lwwWrite_once value a.time v
      | some other => exact lwwWrite_between value other a.time b.time v
  · have hother : ∀ k, part ≠ .property k := fun k hk => h ⟨k, hk⟩
    simp only [a.update_other hother, b.update_other hother, getD_between]

end TimedEvent

theorem NodeState.applyEvent_absorbs : Absorbs applyEvent Emitted where
  once s a ha := by
    apply ext_read
    intro part
    simp [read_applyEvent _ ha, a.update_once]
  between s a b ha hb := by
    apply ext_read
    intro part
    rw [read_applyEvent _ ha, read_applyEvent _ hb, read_applyEvent _ ha, read_applyEvent _ ha, read_applyEvent _ hb,
      a.update_between b]

/-! ### The events of a commit -/

variable {e : TimedEvent NodeChangeEvent}

theorem TimedEvent.EmittedAt.emitted {s : NodeState} (h : e.EmittedAt s) : e.Emitted := by
  obtain ⟨event, time⟩ := e
  cases event with
  | edgePropertyRemoved edgeType target key => exact h
  | _ => trivial

theorem TimedEvent.EmittedAt.update {s : NodeState} (h : e.EmittedAt s)
    (part : NodePart) : e.update part (s.read part) = (e.writes part).getD (s.read part) := by
  by_cases hpart : ∃ k, part = .property k
  · obtain ⟨k, rfl⟩ := hpart
    have hwrite : ∀ key value time, s.wins key time = true →
        (if k = key then lwwWrite value time (s.read (.property k)) else s.read (.property k)) =
          (if k = key then some (value, some time) else none).getD (s.read (.property k)) := by
      intro key value time hwins
      by_cases hk : k = key
      · subst hk
        simp only [if_pos, Option.getD_some]
        exact lwwWrite_of_wins (s.wins_eq k time ▸ hwins)
      · simp only [if_neg hk, Option.getD_none]
    obtain ⟨event, time⟩ := e
    cases event with
    | propertySet key value => exact hwrite key (some value) time h
    | propertyRemoved key previousValue => exact hwrite key none time h
    | _ => rfl
  · exact e.update_other (fun k hk => hpart ⟨k, hk⟩) _

/-- Events that commits can emit one after the other, from this state on. -/
def NodeState.Emits : NodeState → NodeEvents → Prop
  | _, [] => True
  | s, e :: events => e.EmittedAt s ∧ Emits (s.applyEvent e) events

namespace NodeState
variable {s : NodeState} {events : NodeEvents}

theorem emits_append {first second : NodeEvents} :
    s.Emits (first ++ second) ↔ s.Emits first ∧ (s.applyEvents first).Emits second := by
  induction first generalizing s with
  | nil => simp [Emits]
  | cons e first ih => simp [Emits, ih, and_assoc]

theorem Emits.emitted (h : s.Emits events) : ∀ e ∈ events, e.Emitted := by
  induction events generalizing s with
  | nil => exact fun e he => absurd he List.not_mem_nil
  | cons e events ih => exact List.forall_mem_cons.mpr ⟨h.1.emitted, ih h.2⟩

theorem Emits.read_applyEvents (h : s.Emits events) (part : NodePart) :
    (s.applyEvents events).read part = lastWrite (fun e => e.writes part) (s.read part) events := by
  induction events generalizing s with
  | nil => rfl
  | cons e events ih =>
    rw [applyEvents_cons, ih h.2, read_applyEvent s h.1.emitted, h.1.update, lastWrite_cons]

theorem apply_eq (s : NodeState) (time : EventTime) (op : MutationOp) :
    s.Emits (((op.apply s time).2.map fun event => (⟨event, time⟩ : TimedEvent NodeChangeEvent)).toList) ∧
      s.applyEvents (((op.apply s time).2.map fun event => (⟨event, time⟩ : TimedEvent NodeChangeEvent)).toList) =
        (op.apply s time).1 := by
  cases op with
  | setProperty key value | removeProperty key =>
    by_cases h : s.wins key time = true <;> simp [apply, Emits, EmittedAt, applyEvent, h]
  | addEdge edge => by_cases h : edge ∈ s.edges <;> simp [apply, Emits, EmittedAt, applyEvent, h]
  | removeEdge edge => by_cases h : edge ∈ s.edges <;> simp [apply, Emits, EmittedAt, applyEvent, h]
  | addLabel label => by_cases h : label ∈ s.labels <;> simp [apply, Emits, EmittedAt, applyEvent, h]
  | removeLabel label =>
    by_cases h : label ∈ s.labels <;> simp [apply, Emits, EmittedAt, applyEvent, h]
  | edgePropertySet edgeType dst key value | deleteNode tombstone => simp [apply, Emits, EmittedAt, applyEvent]

end NodeState

def CommitDraft.Sourced (s : NodeState) (d : CommitDraft) : Prop :=
  s.Emits d.events ∧ s.applyEvents d.events = d.next

theorem CommitDraft.step_sourced {s : NodeState} {d : CommitDraft} (h : d.Sourced s)
    (receiptTime : EventTime) (fallback : Option EventTime)
    (operation : MutationOp × Option EventTime) :
    (d.step receiptTime fallback operation).Sourced s := by
  obtain ⟨hemits, hnext⟩ := h
  obtain ⟨hemits', hnext'⟩ := d.next.apply_eq (d.opTime receiptTime fallback operation.2) operation.1
  refine ⟨emits_append.mpr ⟨hemits, ?_⟩, ?_⟩
  · rw [hnext]
    exact hemits'
  · simp only [step, applyEvents_append, hnext]
    exact hnext'

/-- **Event sourcing of a commit.** The events that a commit emits lead from the old state to the
new one. -/
theorem NodeTask.draft_sourced (task : NodeTask) (operations : List (MutationOp × Option EventTime))
    (fallback : Option EventTime) : (task.draft operations fallback).Sourced task.state := by
  have hrun : ∀ d : CommitDraft, d.Sourced task.state →
      (operations.foldl (CommitDraft.step (task.nextEventTime + 1) fallback) d).Sourced task.state := by
    induction operations with
    | nil => exact fun d hd => hd
    | cons operation operations ih => exact fun d hd => ih _ (d.step_sourced hd _ _ operation)
  exact hrun _ ⟨trivial, rfl⟩

theorem NodeTask.handleMutate_events (task : NodeTask) (request : MutationRequest) :
    (task.handleMutate request).1.state = task.state.applyEvents (task.mutateEvents request) ∧
      (task.handleMutate request).1.journal = task.journal ++ task.mutateEvents request := by
  unfold handleMutate mutateEvents
  cases task.findReceipt request.requestId with
  | some entry => exact ⟨rfl, (List.append_nil _).symm⟩
  | none => exact ⟨(task.draft_sourced request.operations request.eventTime).2.symm, rfl⟩

end Nexora
