import Nexora.Control.StateMachine
import Nexora.Lib.Redo

/-!
# Applying the committed log

Every node applies the committed entries to its store in batches, and notes its place after each
batch; after a crash it goes on from there. Snapshots are built and installed beside. Puts and
deletes absorb their own earlier occurrence, the commands on the shard map do not.
-/

namespace Nexora.Control
open Lib Nexora.Cluster List ControlStateMachine ControlPlaneStore

/-! ### Entries -/

inductive EntryPayload (B : Type)
  | blank
  | membership
  | normal (command : ControlCommand B)

structure AppliedState where
  lastApplied : Option Nat
  deriving DecidableEq

namespace AppliedState

def count (applied : AppliedState) : Nat := applied.lastApplied.elim 0 (· + 1)

def ofCount : Nat → AppliedState
  | 0 => ⟨none⟩
  | n + 1 => ⟨some n⟩

@[simp] theorem count_ofCount (n : Nat) : (ofCount n).count = n := by
  cases n <;> rfl

end AppliedState

def appliedKey : String := "last_applied"

def snapshotKey : String := "current_snapshot"

structure Snapshot (B : Type) where
  lastApplied : AppliedState
  data : Namespace → Table String B

structure ControlSerde (B : Type) where
  map : Serde ShardMap B
  applied : Serde AppliedState B
  snapshot : Serde (Snapshot B) B

namespace ControlStateMachine
variable {B : Type} (serde : ControlSerde B)

def loadApplied (sm : ControlStateMachine B) : AppliedState :=
  ((sm.store.get .raftMeta appliedKey).bind serde.applied.fromSlice).getD ⟨none⟩

def storeApplied (sm : ControlStateMachine B) (applied : AppliedState) : ControlStateMachine B :=
  match serde.applied.toVec applied with
  | none => sm
  | some bytes => { sm with store := sm.store.put .raftMeta appliedKey bytes }

def storeSnapshot (sm : ControlStateMachine B) (snapshot : Snapshot B) : ControlStateMachine B :=
  match serde.snapshot.toVec snapshot with
  | none => sm
  | some bytes => { sm with store := sm.store.put .raftMeta snapshotKey bytes }

def applyEntry (sm : ControlStateMachine B) (entry : EntryPayload B) : ControlStateMachine B :=
  match entry with
  | .blank => sm
  | .membership => sm
  | .normal command => (sm.applyCommand serde.map command .none).1

end ControlStateMachine

/-! ### What an entry does to a namespace -/

section Effect
variable {B : Type} (serde : ControlSerde B)

def changeTable (change : ShardMap → Except String (ShardMap × ControlResponse))
    (rows : Table String B) : Table String B :=
  match (rows.find? mapKey).bind serde.map.fromSlice with
  | none => rows
  | some map =>
    match change map with
    | .error _ => rows
    | .ok (new, _) => (serde.map.toVec new).elim rows (rows.put mapKey)

def ControlCommand.change? :
    ControlCommand B → Option (ShardMap → Except String (ShardMap × ControlResponse))
  | .put _ _ _ => none
  | .delete _ _ => none
  | .failoverShard shardId newOwner => some (failover shardId newOwner)
  | .failoverShardAuto shardId => some (failoverAuto shardId)
  | .proposeShardMap proposed => (serde.map.fromSlice proposed).map acceptNewer

def EntryPayload.onMap : EntryPayload B → Bool
  | .normal (.failoverShard _ _) => true
  | .normal (.failoverShardAuto _) => true
  | .normal (.proposeShardMap _) => true
  | _ => false

/-- The entry writes a row of the namespace, or none: the key and the value, or the key alone where
the row is deleted. -/
def EntryPayload.write? (ns : Namespace) : EntryPayload B → Option (String × Option B)
  | .normal (.put name key value) => if resolveNamespace name = some ns then some (key, some value) else none
  | .normal (.delete name key) => if resolveNamespace name = some ns then some (key, none) else none
  | _ => none

def writeRow (rows : Table String B) : Option (String × Option B) → Table String B
  | none => rows
  | some (key, some value) => rows.put key value
  | some (key, none) => rows.erase key

def EntryPayload.effect (ns : Namespace) (rows : Table String B) (entry : EntryPayload B) :
    Table String B :=
  match entry with
  | .normal command =>
    match command.change? serde with
    | some change => if ns = .shardMap then changeTable serde change rows else rows
    | none => writeRow rows (entry.write? ns)
  | _ => rows

variable {serde} {sm : ControlStateMachine B}

theorem data_changeShardMap (change : ShardMap → Except String (ShardMap × ControlResponse))
    (ns : Namespace) :
    (sm.changeShardMap serde.map change .none).1.store.data ns =
      if ns = .shardMap then changeTable serde change (sm.store.data .shardMap) else sm.store.data ns := by
  have hget : sm.store.get .shardMap mapKey = (sm.store.data .shardMap).find? mapKey := rfl
  have hkeep : sm.store.data ns = if ns = .shardMap then sm.store.data .shardMap else sm.store.data ns := by
    split
    · next heq => rw [heq]
    · rfl
  simp only [changeShardMap, loadShardMap, StoreFaults.none, hget, changeTable]
  cases (sm.store.data .shardMap).find? mapKey with
  | none => exact hkeep
  | some bytes =>
    dsimp only [Option.bind_some]
    cases serde.map.fromSlice bytes with
    | none => exact hkeep
    | some map =>
      dsimp only
      cases change map with
      | error message => exact hkeep
      | ok changed =>
        dsimp only [saveShardMap]
        cases serde.map.toVec changed.1 with
        | none => exact hkeep
        | some bytes' =>
          dsimp only [Option.elim_some, put]
          by_cases hns : ns = .shardMap
          · subst hns
            simp
          · simp [hns]

theorem data_writeNamespace (hq : sm.quarantined = []) (name key : String) (value : Option B)
    {write : Namespace → ControlPlaneStore B} (hwrite : ∀ target, (write target).data =
      Function.update sm.store.data target (writeRow (sm.store.data target) (some (key, value)))) (ns : Namespace) :
    (sm.writeNamespace name write .none).1.store.data ns =
      writeRow (sm.store.data ns) (if resolveNamespace name = some ns then some (key, value) else none) := by
  unfold writeNamespace
  cases resolveNamespace name with
  | none => rfl
  | some target =>
    by_cases heq : target = ns
    · subst heq
      simp [hq, hwrite, StoreFaults.none]
    · simp [hq, hwrite, StoreFaults.none, writeRow, heq, Ne.symm heq]

theorem data_applyEntry (hq : sm.quarantined = []) (entry : EntryPayload B) (ns : Namespace) :
    (sm.applyEntry serde entry).store.data ns = entry.effect serde ns (sm.store.data ns) := by
  have hmap : ∀ change : ShardMap → Except String (ShardMap × ControlResponse),
      (sm.changeShardMap serde.map change .none).1.store.data ns =
        if ns = .shardMap then changeTable serde change (sm.store.data ns) else sm.store.data ns := by
    intro change
    rw [data_changeShardMap]
    split
    · next heq => rw [heq]
    · rfl
  cases entry with
  | blank | membership => rfl
  | normal command =>
    cases command with
    | put name key value => exact data_writeNamespace hq name key (some value) (fun _ => rfl) ns
    | delete name key => exact data_writeNamespace hq name key none (fun _ => rfl) ns
    | failoverShard | failoverShardAuto => exact hmap _
    | proposeShardMap proposed =>
      simp only [applyEntry, applyCommand, applyProposeShardMap,
        EntryPayload.effect, ControlCommand.change?]
      cases serde.map.fromSlice proposed with
      | none => rfl
      | some map => exact hmap _

theorem quarantined_applyEntry (hq : sm.quarantined = []) (entry : EntryPayload B) :
    (sm.applyEntry serde entry).quarantined = [] := by
  have hmap : ∀ change : ShardMap → Except String (ShardMap × ControlResponse),
      (sm.changeShardMap serde.map change .none).1.quarantined = [] := by
    intro change
    unfold changeShardMap saveShardMap
    split
    · exact hq
    · split
      · exact hq
      · split
        · exact hq
        · next heq =>
          split at heq
          · cases heq
          · cases heq
            exact hq
  have hwrite : ∀ (name : String) (write : Namespace → ControlPlaneStore B),
      (sm.writeNamespace name write .none).1.quarantined = [] := by
    intro name write
    unfold writeNamespace
    cases resolveNamespace name with
    | none => exact hq
    | some target => simp [hq, StoreFaults.none]
  cases entry with
  | blank | membership => exact hq
  | normal command =>
    cases command with
    | put | delete => exact hwrite _ _
    | failoverShard | failoverShardAuto => exact hmap _
    | proposeShardMap proposed =>
      simp only [applyEntry, applyCommand, applyProposeShardMap]
      cases serde.map.fromSlice proposed with
      | none => exact hq
      | some map => exact hmap _

/-! ### Entries that absorb themselves -/

def Blind (ns : Namespace) (entry : EntryPayload B) : Prop := ns = .shardMap → entry.onMap = false

theorem effect_of_blind {ns : Namespace} {entry : EntryPayload B} (h : Blind ns entry)
    (rows : Table String B) :
    entry.effect serde ns rows = writeRow rows (entry.write? ns) := by
  have hmap : entry.onMap = true → ns ≠ .shardMap := by
    intro hon heq
    rw [h heq] at hon
    cases hon
  cases entry with
  | blank | membership => rfl
  | normal command =>
    cases command with
    | put | delete => rfl
    | failoverShard | failoverShardAuto => exact if_neg (hmap rfl)
    | proposeShardMap proposed =>
      simp only [EntryPayload.effect, ControlCommand.change?]
      cases serde.map.fromSlice proposed with
      | none => rfl
      | some map => exact if_neg (hmap rfl)

theorem find?_writeRow (rows : Table String B) (write : Option (String × Option B)) (key : String) :
    (writeRow rows write).find? key = (write.bind fun w => if key = w.1 then some w.2 else none).getD (rows.find? key) := by
  match write with
  | none => rfl
  | some (k, some value) =>
    rw [writeRow, Table.find?_put]
    split <;> simp_all
  | some (k, none) =>
    rw [writeRow, Table.find?_erase]
    split <;> simp_all

theorem absorbs_effect (serde : ControlSerde B) (ns : Namespace) :
    Absorbs (fun rows (entry : EntryPayload B) => entry.effect serde ns rows) (Blind ns) := by
  constructor
  · intro rows entry hblind
    simp only [effect_of_blind hblind]
    apply Table.ext_find?
    intro key
    simp only [find?_writeRow]
    cases (entry.write? ns).bind fun w => if key = w.1 then some w.2 else none <;> rfl
  · intro rows entry other hblind hother
    simp only [effect_of_blind hblind, effect_of_blind hother]
    apply Table.ext_find?
    intro key
    simp only [find?_writeRow]
    cases (entry.write? ns).bind fun w => if key = w.1 then some w.2 else none <;> rfl

end Effect

/-! ### Installing a snapshot -/

inductive StoreWrite (B : Type)
  | put (ns : Namespace) (key : String) (value : B)
  | delete (ns : Namespace) (key : String)

def StoreWrite.perform {B : Type} (store : ControlPlaneStore B) : StoreWrite B → ControlPlaneStore B
  | .put ns key value => store.put ns key value
  | .delete ns key => store.delete ns key

section Restore
variable {B : Type}
variable (store : ControlPlaneStore B)

def restoreNamespace (data : Namespace → Table String B) (ns : Namespace) : List (StoreWrite B) :=
  ((store.list ns).map fun row => .delete ns row.1) ++ (data ns).rows.map fun row => .put ns row.1 row.2

def restoreWrites (data : Namespace → Table String B) : List (StoreWrite B) :=
  Namespace.snapshotNamespaces.flatMap (restoreNamespace store data)

theorem data_foldl_delete (keys : List String) (store : ControlPlaneStore B) (ns ns' : Namespace) :
    ((keys.map fun key => StoreWrite.delete ns key).foldl StoreWrite.perform store).data ns' =
      if ns' = ns then keys.foldl Table.erase (store.data ns') else store.data ns' := by
  induction keys generalizing store with
  | nil => simp
  | cons key keys ih =>
    rw [map_cons, foldl_cons, ih]
    by_cases hns : ns' = ns
    · subst hns
      simp [StoreWrite.perform, delete]
    · simp [StoreWrite.perform, delete, hns]

theorem data_foldl_put (rows : List (String × B)) (store : ControlPlaneStore B)
    (ns ns' : Namespace) :
    ((rows.map fun row => StoreWrite.put ns row.1 row.2).foldl StoreWrite.perform store).data ns' =
      if ns' = ns then (store.data ns').putAll rows else store.data ns' := by
  induction rows generalizing store with
  | nil => simp [Table.putAll]
  | cons row rows ih =>
    rw [map_cons, foldl_cons, ih]
    by_cases hns : ns' = ns
    · subst hns
      simp [StoreWrite.perform, put, Table.putAll]
    · simp [StoreWrite.perform, put, hns]

theorem foldl_erase_keys (rows : Table String B) :
    (rows.rows.map Prod.fst).foldl Table.erase rows = Table.empty := by
  have herase : ∀ (keys : List String) (t : Table String B) (key : String),
      (keys.foldl Table.erase t).find? key = if key ∈ keys then none else t.find? key := by
    intro keys
    induction keys with
    | nil => simp
    | cons first keys ih =>
      intro t key
      rw [foldl_cons, ih, Table.find?_erase]
      by_cases hfirst : key = first
      · simp [hfirst]
      · simp [hfirst]
  apply Table.ext_find?
  intro key
  rw [herase, Table.find?_empty]
  split
  · rfl
  · next hnot =>
    rw [Option.eq_none_iff_forall_ne_some]
    intro value hvalue
    exact hnot (mem_map_of_mem (f := Prod.fst) (Table.find?_eq_some_iff.mp hvalue))

theorem data_restoreNamespace {store original : ControlPlaneStore B} {ns : Namespace}
    (hsame : store.data ns = original.data ns) (data : Namespace → Table String B)
    (ns' : Namespace) :
    ((restoreNamespace original data ns).foldl StoreWrite.perform store).data ns' =
      if ns' = ns then data ns else store.data ns' := by
  have hdeletes : ((original.list ns).map fun row => StoreWrite.delete (B := B) ns row.1) =
      ((original.data ns).rows.map Prod.fst).map fun key => StoreWrite.delete ns key := by
    rw [map_map]
    rfl
  rw [restoreNamespace, foldl_append, data_foldl_put, hdeletes, data_foldl_delete]
  split
  · next hns =>
    rw [hns, hsame, foldl_erase_keys]
    exact Table.putAll_empty fun _ => Iff.rfl
  · rfl

theorem data_restoreWrites (data : Namespace → Table String B) (ns : Namespace) :
    ((restoreWrites store data).foldl StoreWrite.perform store).data ns =
      if ns ∈ Namespace.snapshotNamespaces then data ns else store.data ns := by
  have hall : ∀ (list : List Namespace) (now : ControlPlaneStore B), list.Nodup →
    (∀ ns ∈ list, now.data ns = store.data ns) →
      ((list.flatMap (restoreNamespace store data)).foldl StoreWrite.perform now).data ns =
        if ns ∈ list then data ns else now.data ns := by
    intro list
    induction list with
    | nil => simp
    | cons first list ih =>
      intro now hnodup hsame
      obtain ⟨hfirst, hnodup⟩ := nodup_cons.mp hnodup
      have hnext := data_restoreNamespace (hsame first mem_cons_self) data
      rw [flatMap_cons, foldl_append, ih _ hnodup, hnext]
      · by_cases hns : ns = first
        · subst hns
          simp [hfirst]
        · simp [hns]
      · intro other hother
        have hne : other ≠ first := fun heq => hfirst (heq ▸ hother)
        rw [hnext, if_neg hne]
        exact hsame other (mem_cons_of_mem first hother)
  exact hall Namespace.snapshotNamespaces store (by decide) fun _ _ => rfl

end Restore

/-! ### Nodes -/

/-- What the worker of a state machine is at: a batch, of which the entries up to `next` are
executed, an install with the writes that are still to be made, or an installed snapshot that is
still to be kept. -/
inductive Task (B : Type)
  | idle
  | batch (next stop : Nat)
  | install (pending : List (StoreWrite B)) (snapshot : Snapshot B)
  | keep (snapshot : Snapshot B)

def Task.isIdle {B : Type} : Task B → Bool
  | .idle => true
  | _ => false

def Task.isInstall {B : Type} : Task B → Bool
  | .install _ _ => true
  | _ => false

structure SnapshotBuilder (B : Type) where
  lastApplied : AppliedState
  unread : List Namespace
  data : Namespace → Table String B

structure ControlNode (B : Type) where
  sm : ControlStateMachine B
  task : Task B
  builder : Option (SnapshotBuilder B)

namespace ControlNode
variable {B : Type} (serde : ControlSerde B) (log : List (EntryPayload B))
variable (n : ControlNode B)

def saved : Nat := (n.sm.loadApplied serde).count

def beginBatch (stop : Nat) : ControlNode B :=
  match n.task with
  | .idle => if n.saved serde ≤ stop ∧ stop ≤ log.length then { n with task := .batch (n.saved serde) stop } else n
  | _ => n

def execute : ControlNode B :=
  match n.task with
  | .batch next stop =>
    match log[next]? with
    | some entry => if next < stop then { n with sm := n.sm.applyEntry serde entry, task := .batch (next + 1) stop } else n
    | none => n
  | _ => n

def finishBatch : ControlNode B :=
  match n.task with
  | .batch next stop => if next = stop then { n with sm := n.sm.storeApplied serde (.ofCount next), task := .idle } else n
  | _ => n

def crash : ControlNode B := { n with task := .idle, builder := none }

def beginSnapshot : ControlNode B :=
  { n with builder := some ⟨n.sm.loadApplied serde, Namespace.snapshotNamespaces, fun _ => .empty⟩ }

def readNamespace : ControlNode B :=
  match n.builder with
  | some b =>
    match b.unread with
    | ns :: rest => { n with builder := some { b with unread := rest, data := Function.update b.data ns (n.sm.store.data ns) } }
    | [] => n
  | none => n

def finishSnapshot : ControlNode B × Option (Snapshot B) :=
  match n.builder with
  | some b =>
    match b.unread with
    | [] =>
      let snapshot : Snapshot B := ⟨b.lastApplied, b.data⟩
      ({ n with sm := n.sm.storeSnapshot serde snapshot, builder := none }, some snapshot)
    | _ :: _ => (n, none)
  | none => (n, none)

def beginInstall (snapshot : Snapshot B) : ControlNode B :=
  match n.task with
  | .idle => { n with task := .install (restoreWrites n.sm.store snapshot.data) snapshot }
  | _ => n

def writeInstall : ControlNode B :=
  match n.task with
  | .install (write :: pending) snapshot =>
    { n with sm := { n.sm with store := write.perform n.sm.store }, task := .install pending snapshot }
  | _ => n

/-- The place of the snapshot is taken over after its rows. -/
def adoptInstall : ControlNode B :=
  match n.task with
  | .install [] snapshot => { n with sm := n.sm.storeApplied serde snapshot.lastApplied, task := .keep snapshot }
  | _ => n

def keepInstall : ControlNode B :=
  match n.task with
  | .keep snapshot => { n with sm := n.sm.storeSnapshot serde snapshot, task := .idle }
  | _ => n

def position : Nat :=
  match n.task with
  | .batch next _ => next
  | _ => n.saved serde

end ControlNode

structure ControlCluster (B : Type) where
  nodes : NodeName → ControlNode B
  snapshots : List (Snapshot B)

inductive ApplyEvent
  | beginBatch (stop : Nat)
  | execute
  | finishBatch
  | crash
  | beginSnapshot
  | readNamespace
  | finishSnapshot
  | beginInstall (i : Nat)
  | writeInstall
  | adoptInstall
  | keepInstall

namespace ControlCluster
variable {B : Type} (serde : ControlSerde B) (log : List (EntryPayload B))
variable (s : ControlCluster B)

def onNode (n : ControlNode B) : ApplyEvent → ControlNode B
  | .beginBatch stop => n.beginBatch serde log stop
  | .execute => n.execute serde log
  | .finishBatch => n.finishBatch serde
  | .crash => n.crash
  | .beginSnapshot => n.beginSnapshot serde
  | .readNamespace => n.readNamespace
  | .finishSnapshot => (n.finishSnapshot serde).1
  | .beginInstall i => (s.snapshots[i]?).elim n n.beginInstall
  | .writeInstall => n.writeInstall
  | .adoptInstall => n.adoptInstall serde
  | .keepInstall => n.keepInstall serde

def built (n : ControlNode B) : ApplyEvent → List (Snapshot B)
  | .finishSnapshot => (n.finishSnapshot serde).2.toList
  | _ => []

def step (label : NodeName × ApplyEvent) : ControlCluster B where
  nodes := Function.update s.nodes label.1 (s.onNode serde log (s.nodes label.1) label.2)
  snapshots := s.snapshots ++ built serde (s.nodes label.1) label.2

def start (sm : ControlStateMachine B) : ControlCluster B := ⟨fun _ => ⟨sm, .idle, none⟩, []⟩

/-- A node that has applied the whole log has the namespaces that come from applying each entry
once. -/
def AppliedOnce (sm : ControlStateMachine B) (s : ControlCluster B) : Prop :=
  ∀ node, (s.nodes node).task.isIdle = true → (s.nodes node).saved serde = log.length →
    ∀ ns ∈ Namespace.snapshotNamespaces,
      (s.nodes node).sm.store.data ns = (log.foldl (applyEntry serde) sm).store.data ns

/-- The condition on the steps. The entries leave the state machine's own namespace alone. A node
does not crash with a command on the map executed behind its saved place, nor during an install.
When a snapshot reads the map, none is executed behind the snapshot's place. Snapshots are not built
during installs. -/
def Orderly (label : NodeName × ApplyEvent) : Prop :=
  let n := s.nodes label.1
  match label.2 with
  | .execute => ∀ entry, log[n.position serde]? = some entry → entry.write? .raftMeta = none
  | .crash => n.task.isInstall = false ∧ (slice log (n.saved serde) (n.position serde)).any EntryPayload.onMap = false
  | .beginSnapshot => n.task.isInstall = false
  | .readNamespace => ∀ b, n.builder = some b → b.unread.head? = some .shardMap →
    (slice log b.lastApplied.count (n.position serde)).any EntryPayload.onMap = false
  | .beginInstall _ => n.builder.isNone = true
  | _ => True

end ControlCluster
end Nexora.Control
