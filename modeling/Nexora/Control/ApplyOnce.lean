import Nexora.Control.Apply

/-!
# Each entry once

A node is at two places of the log: where its execution is, and where it has saved. `Resumable` says
that each namespace can be resumed at both. A node at the end of the log then has the namespaces
that come from applying each entry once.
-/

namespace Nexora.Control
open Lib Nexora.Cluster List ControlStateMachine ControlNode AppliedState ControlPlaneStore ControlCluster Function Namespace

/-! ### What a node keeps -/

section Invariant
variable {B : Type} (serde : ControlSerde B) (log : List (EntryPayload B))
    (sm : ControlStateMachine B)

/-- The log can be resumed at a place, for one namespace. -/
def Sound (ns : Namespace) (rows : Table String B) (k : Nat) : Prop :=
  ∃ m ≤ log.length, Resumes (fun rows (entry : EntryPayload B) => entry.effect serde ns rows)
    (sm.store.data ns) log rows k m

structure Snapshot.Sound (snapshot : Snapshot B) : Prop where
  bound : snapshot.lastApplied.count ≤ log.length
  data : ∀ ns ∈ snapshotNamespaces, Control.Sound serde log sm ns (snapshot.data ns) snapshot.lastApplied.count

/-- The log can be resumed at a place behind the execution, as long as the entries since then absorb
themselves. -/
def Behind (ns : Namespace) (rows : Table String B) (k j : Nat) : Prop :=
  (∀ entry ∈ slice log k j, Blind ns entry) → Sound serde log sm ns rows k

/-- Each namespace can be resumed where the execution is, and behind it at an older place. -/
structure Resumable (rows : Namespace → Table String B) (k j : Nat) : Prop where
  le : k ≤ j
  bound : j ≤ log.length
  current : ∀ ns ∈ snapshotNamespaces, Sound serde log sm ns (rows ns) j
  behind : ∀ ns ∈ snapshotNamespaces, Behind serde log sm ns (rows ns) k j

variable {serde log sm} {rows : Namespace → Table String B} {k j : Nat}

variable {entry : EntryPayload B}

theorem Sound.next {ns : Namespace} {rows : Table String B} (h : Sound serde log sm ns rows j)
    (hj : log[j]? = some entry) : Sound serde log sm ns (entry.effect serde ns rows) (j + 1) := by
  obtain ⟨m, hm, hresumes⟩ := h
  obtain ⟨hlt, -⟩ := List.getElem?_eq_some_iff.mp hj
  exact ⟨max m (j + 1), by omega, hresumes.next hj⟩

theorem Behind.next {ns : Namespace} {rows : Table String B} (h : Behind serde log sm ns rows k j)
    (hj : log[j]? = some entry) (hkj : k ≤ j) :
    Behind serde log sm ns (entry.effect serde ns rows) k (j + 1) := by
  intro hblind
  have hbefore : ∀ entry ∈ slice log k j, Blind ns entry := by
    intro other hother
    apply hblind
    rw [slice_succ hj hkj]
    exact mem_append_left _ hother
  obtain ⟨m, hm, hresumes⟩ := h hbefore
  obtain ⟨hlt, -⟩ := List.getElem?_eq_some_iff.mp hj
  exact ⟨max m (j + 1), by omega, hresumes.again (absorbs_effect serde ns) hj hkj hblind⟩

theorem Resumable.refl (hbound : k ≤ log.length)
    (h : ∀ ns ∈ snapshotNamespaces, Sound serde log sm ns (rows ns) k) :
    Resumable serde log sm rows k k := ⟨Nat.le_refl k, hbound, h, fun ns hns _ => h ns hns⟩

theorem Resumable.execute (h : Resumable serde log sm rows k j) (hj : log[j]? = some entry) :
    Resumable serde log sm (fun ns => entry.effect serde ns (rows ns)) k (j + 1) := by
  obtain ⟨hlt, -⟩ := List.getElem?_eq_some_iff.mp hj
  exact ⟨Nat.le_succ_of_le h.le, hlt, fun ns hns => (h.current ns hns).next hj, fun ns hns => (h.behind ns hns).next hj h.le⟩

theorem blind_of_any {ns : Namespace} {entries : List (EntryPayload B)}
    (h : ns = .shardMap → entries.any EntryPayload.onMap = false) :
    ∀ entry ∈ entries, Blind ns entry := by
  intro entry hentry hns
  simpa using any_eq_false.mp (h hns) entry hentry

end Invariant

/-! ### The own namespace -/

section Meta
variable {B : Type} {serde : ControlSerde B} {sm : ControlStateMachine B}

theorem data_storeApplied (applied : AppliedState) {ns : Namespace}
    (hns : ns ∈ snapshotNamespaces) :
    (sm.storeApplied serde applied).store.data ns = sm.store.data ns := by
  have hne : ns ≠ .raftMeta := by
    rintro rfl
    exact absurd hns (by decide)
  unfold storeApplied
  split
  · rfl
  · simp [put, hne]

theorem data_storeSnapshot (snapshot : Snapshot B) {ns : Namespace}
    (hns : ns ∈ snapshotNamespaces) :
    (sm.storeSnapshot serde snapshot).store.data ns = sm.store.data ns := by
  have hne : ns ≠ .raftMeta := by
    rintro rfl
    exact absurd hns (by decide)
  unfold storeSnapshot
  split
  · rfl
  · simp [put, hne]

theorem quarantined_storeApplied (applied : AppliedState) :
    (sm.storeApplied serde applied).quarantined = sm.quarantined := by
  unfold storeApplied
  split <;> rfl

theorem quarantined_storeSnapshot (snapshot : Snapshot B) :
    (sm.storeSnapshot serde snapshot).quarantined = sm.quarantined := by
  unfold storeSnapshot
  split <;> rfl

theorem loadApplied_storeApplied {applied : AppliedState} (h : serde.applied.Keeps applied) :
    (sm.storeApplied serde applied).loadApplied serde = applied := by
  obtain ⟨bytes, hbytes, hslice⟩ := h.exists_toVec
  simp [storeApplied, loadApplied, hbytes, hslice]

theorem loadApplied_storeSnapshot (snapshot : Snapshot B) :
    (sm.storeSnapshot serde snapshot).loadApplied serde = sm.loadApplied serde := by
  unfold storeSnapshot
  split
  · rfl
  · simp [loadApplied, appliedKey, snapshotKey]

theorem loadApplied_applyEntry (hq : sm.quarantined = []) {entry : EntryPayload B}
    (h : entry.write? .raftMeta = none) :
    (sm.applyEntry serde entry).loadApplied serde = sm.loadApplied serde := by
  have hblind : Blind Namespace.raftMeta entry := fun heq => absurd heq (by decide)
  have hdata : (sm.applyEntry serde entry).store.data .raftMeta = sm.store.data .raftMeta := by
    rw [data_applyEntry hq, effect_of_blind hblind, h]
    rfl
  simp [loadApplied, ControlPlaneStore.get, hdata]

end Meta

/-! ### The invariant -/

section Steps
variable {B : Type} (serde : ControlSerde B) (log : List (EntryPayload B))
    (sm : ControlStateMachine B)

/-- What is unread of a snapshot under way can still be resumed at its place, and what was read
can. -/
structure SnapshotBuilder.Inv (b : SnapshotBuilder B) (rows : Namespace → Table String B)
    (k j : Nat) : Prop where
  le : b.lastApplied.count ≤ k
  subset : ∀ ns ∈ b.unread, ns ∈ snapshotNamespaces
  unread : ∀ ns ∈ b.unread, Behind serde log sm ns (rows ns) b.lastApplied.count j
  read : ∀ ns ∈ snapshotNamespaces, ns ∉ b.unread → Sound serde log sm ns (b.data ns) b.lastApplied.count

structure ControlNode.Inv (n : ControlNode B) : Prop where
  quarantined : n.sm.quarantined = []
  resumable : n.task.isInstall = false → Resumable serde log sm n.sm.store.data (n.saved serde) (n.position serde)
  install : ∀ pending snapshot, n.task = .install pending snapshot → n.builder = none ∧ snapshot.Sound serde log sm ∧
    ∀ ns ∈ snapshotNamespaces, (pending.foldl StoreWrite.perform n.sm.store).data ns = snapshot.data ns
  builder : ∀ b, n.builder = some b → b.Inv serde log sm n.sm.store.data (n.saved serde) (n.position serde)

structure ControlCluster.Inv (s : ControlCluster B) : Prop where
  nodes : ∀ node, (s.nodes node).Inv serde log sm
  snapshots : ∀ snapshot ∈ s.snapshots, snapshot.Sound serde log sm

variable {serde log sm} {rows rows' : Namespace → Table String B} {k j : Nat} {n : ControlNode B}

theorem Resumable.congr (h : Resumable serde log sm rows k j)
    (hrows : ∀ ns ∈ snapshotNamespaces, rows' ns = rows ns) :
    Resumable serde log sm rows' k j := by
  refine ⟨h.le, h.bound, fun ns hns => ?_, fun ns hns => ?_⟩
  · rw [hrows ns hns]
    exact h.current ns hns
  · rw [hrows ns hns]
    exact h.behind ns hns

namespace SnapshotBuilder
variable {b : SnapshotBuilder B}
section
variable (h : b.Inv serde log sm rows k j)
include h

theorem Inv.congr (hrows : ∀ ns ∈ snapshotNamespaces, rows' ns = rows ns) :
    b.Inv serde log sm rows' k j := by
  refine ⟨h.le, h.subset, fun ns hns => ?_, h.read⟩
  rw [hrows ns (h.subset ns hns)]
  exact h.unread ns hns

theorem Inv.execute {entry : EntryPayload B} (hj : log[j]? = some entry) (hkj : k ≤ j) :
    b.Inv serde log sm (fun ns => entry.effect serde ns (rows ns)) k (j + 1) :=
  ⟨h.le, h.subset, fun ns hns => (h.unread ns hns).next hj (h.le.trans hkj), h.read⟩

theorem Inv.mono {k' : Nat} (hk : k ≤ k') : b.Inv serde log sm rows k' j :=
  ⟨h.le.trans hk, h.subset, h.unread, h.read⟩

theorem Inv.readNext {ns : Namespace} {rest : List Namespace} (hunread : b.unread = ns :: rest)
    (hread : Sound serde log sm ns (rows ns) b.lastApplied.count) :
    ({ b with unread := rest, data := update b.data ns (rows ns) } : SnapshotBuilder B).Inv serde log sm rows k j := by
  have hrest : ∀ other ∈ rest, other ∈ b.unread :=
    fun other hother => by rw [hunread]; exact mem_cons_of_mem ns hother
  refine ⟨h.le, fun other hother => h.subset other (hrest other hother), fun other hother => h.unread other (hrest other hother), ?_⟩
  intro other hmem hnot
  show Sound serde log sm other (update b.data ns (rows ns) other) b.lastApplied.count
  by_cases heq : other = ns
  · subst heq
    rw [update_self]
    exact hread
  · rw [update_of_ne heq]
    apply h.read other hmem
    rw [hunread, mem_cons, not_or]
    exact ⟨heq, hnot⟩

end
end SnapshotBuilder

namespace ControlNode

theorem Inv.mk_of_not_install (hq : n.sm.quarantined = []) (htask : n.task.isInstall = false)
    (hresumable : Resumable serde log sm n.sm.store.data (n.saved serde) (n.position serde))
    (hbuilder : ∀ b, n.builder = some b → b.Inv serde log sm n.sm.store.data (n.saved serde) (n.position serde)) :
    n.Inv serde log sm where
  quarantined := hq
  resumable := fun _ => hresumable
  install := by
    intro pending snapshot hinstall
    rw [hinstall] at htask
    cases htask
  builder := hbuilder

theorem Inv.mk_of_install (hq : n.sm.quarantined = []) {pending : List (StoreWrite B)}
    {snapshot : Snapshot B} (htask : n.task = .install pending snapshot)
    (hbuilder : n.builder = none) (hsound : snapshot.Sound serde log sm)
    (hrows : ∀ ns ∈ snapshotNamespaces, (pending.foldl StoreWrite.perform n.sm.store).data ns = snapshot.data ns) :
    n.Inv serde log sm where
  quarantined := hq
  resumable := by
    intro hinstall
    rw [htask] at hinstall
    cases hinstall
  install := by
    intro pending' snapshot' hinstall
    rw [htask] at hinstall
    cases hinstall
    exact ⟨hbuilder, hsound, hrows⟩
  builder := by
    intro b hb
    rw [hbuilder] at hb
    cases hb

theorem Inv.not_install_of_builder (h : n.Inv serde log sm) {b : SnapshotBuilder B}
    (hb : n.builder = some b) :
    n.task.isInstall = false := by
  cases hcase : n.task with
  | install pending snapshot =>
    have hnone := (h.install pending snapshot hcase).1
    rw [hb] at hnone
    cases hnone
  | idle | batch | keep => rfl

theorem Inv.beginBatch (h : n.Inv serde log sm) (stop : Nat) :
    (n.beginBatch serde log stop).Inv serde log sm := by
  unfold ControlNode.beginBatch
  split
  · next hidle =>
    have htask : n.task.isInstall = false := by rw [hidle]; rfl
    have hposition : n.position serde = n.saved serde := by simp only [position, hidle]
    have hresumable := h.resumable htask
    have hbuilder := h.builder
    rw [hposition] at hresumable hbuilder
    split
    · exact mk_of_not_install h.quarantined rfl hresumable hbuilder
    · exact h
  · exact h

theorem Inv.execute (h : n.Inv serde log sm)
    (hmeta : ∀ entry, log[n.position serde]? = some entry → entry.write? .raftMeta = none) :
    (n.execute serde log).Inv serde log sm := by
  unfold ControlNode.execute
  split
  · next next stop htask =>
    have hposition : n.position serde = next := by simp only [position, htask]
    split
    · next entry hentry =>
      split
      · have hresumable := h.resumable (by rw [htask]; rfl)
        have hsaved : (n.sm.applyEntry serde entry).loadApplied serde = n.sm.loadApplied serde :=
          loadApplied_applyEntry h.quarantined (hmeta entry (by rw [hposition]; exact hentry))
        have hdata : (n.sm.applyEntry serde entry).store.data = fun ns => entry.effect serde ns (n.sm.store.data ns) :=
          funext (data_applyEntry h.quarantined entry)
        rw [hposition] at hresumable
        apply mk_of_not_install (quarantined_applyEntry h.quarantined entry) rfl
        · simp only [saved, hsaved, hdata]
          exact hresumable.execute hentry
        · intro b hb
          have hinv := h.builder b hb
          rw [hposition] at hinv
          simp only [saved, hsaved, hdata]
          exact hinv.execute hentry hresumable.le
      · exact h
    · exact h
  · exact h

theorem Inv.finishBatch (hserde : ∀ applied, serde.applied.Keeps applied) (h : n.Inv serde log sm) :
    (n.finishBatch serde).Inv serde log sm := by
  unfold ControlNode.finishBatch
  split
  · next next stop htask =>
    have hposition : n.position serde = next := by simp only [position, htask]
    have hresumable := h.resumable (by rw [htask]; rfl)
    have hbuilder := h.builder
    rw [hposition] at hresumable hbuilder
    have hsaved : ((n.sm.storeApplied serde (.ofCount next)).loadApplied serde).count = next := by
      rw [loadApplied_storeApplied (hserde _), count_ofCount]
    have hdata : ∀ ns ∈ snapshotNamespaces,
        (n.sm.storeApplied serde (.ofCount next)).store.data ns = n.sm.store.data ns :=
          fun ns hns => data_storeApplied _ hns
    split
    · apply mk_of_not_install (by rw [quarantined_storeApplied]; exact h.quarantined) rfl
      · simp only [position, saved, hsaved]
        exact (Resumable.refl hresumable.bound hresumable.current).congr hdata
      · intro b hb
        simp only [position, saved, hsaved]
        exact ((hbuilder b hb).mono hresumable.le).congr hdata
    · exact h
  · exact h

section
variable (h : n.Inv serde log sm)
include h

theorem Inv.crash (htask : n.task.isInstall = false)
    (hmap : (slice log (n.saved serde) (n.position serde)).any EntryPayload.onMap = false) :
    n.crash.Inv serde log sm := by
  have hresumable := h.resumable htask
  refine mk_of_not_install (n := n.crash) h.quarantined rfl ?_ ?_
  · apply Resumable.refl (hresumable.le.trans hresumable.bound)
    intro ns hns
    exact hresumable.behind ns hns (blind_of_any fun _ => hmap)
  · intro b hb
    cases hb

theorem Inv.beginSnapshot (htask : n.task.isInstall = false) :
    (n.beginSnapshot serde).Inv serde log sm := by
  have hresumable := h.resumable htask
  refine mk_of_not_install (n := n.beginSnapshot serde) h.quarantined htask hresumable ?_
  intro b hb
  cases hb
  exact ⟨Nat.le_refl _, fun ns hns => hns, hresumable.behind, fun ns hns hread => absurd hns hread⟩

theorem Inv.readNamespace (hmap : ∀ b, n.builder = some b → b.unread.head? = some .shardMap →
      (slice log b.lastApplied.count (n.position serde)).any EntryPayload.onMap = false) :
    n.readNamespace.Inv serde log sm := by
  unfold ControlNode.readNamespace
  split
  · next b hb =>
    split
    · next ns rest hunread =>
      have hinv := h.builder b hb
      have hread : Sound serde log sm ns (n.sm.store.data ns) b.lastApplied.count := by
        apply hinv.unread ns (by rw [hunread]; exact mem_cons_self)
        exact blind_of_any fun heq => hmap b hb (by rw [hunread, heq]; rfl)
      have htask := h.not_install_of_builder hb
      refine mk_of_not_install h.quarantined htask (h.resumable htask) ?_
      intro b' hb'
      cases hb'
      exact hinv.readNext hunread hread
    · exact h
  · exact h

theorem Inv.storeSnapshot {task : Task B} {builder : Option (SnapshotBuilder B)}
    (snapshot : Snapshot B) (htask : n.task.isInstall = false) (htask' : task.isInstall = false)
    (hposition : (⟨n.sm.storeSnapshot serde snapshot, task, builder⟩ : ControlNode B).position serde = n.position serde)
    (hbuilder : ∀ b, builder = some b → n.builder = some b) :
    (⟨n.sm.storeSnapshot serde snapshot, task, builder⟩ : ControlNode B).Inv serde log sm := by
  have hsaved : (⟨n.sm.storeSnapshot serde snapshot, task, builder⟩ : ControlNode B).saved serde = n.saved serde :=
    congrArg count (loadApplied_storeSnapshot snapshot)
  have hdata : ∀ ns ∈ snapshotNamespaces, (n.sm.storeSnapshot serde snapshot).store.data ns = n.sm.store.data ns :=
    fun ns hns => data_storeSnapshot snapshot hns
  apply mk_of_not_install ((quarantined_storeSnapshot snapshot).trans h.quarantined) htask'
  · rw [hsaved, hposition]
    exact (h.resumable htask).congr hdata
  · intro b hb
    rw [hsaved, hposition]
    exact (h.builder b (hbuilder b hb)).congr hdata

theorem Inv.finishSnapshot :
    (n.finishSnapshot serde).1.Inv serde log sm ∧ ∀ snapshot ∈ (n.finishSnapshot serde).2,
      snapshot.Sound serde log sm := by
  unfold ControlNode.finishSnapshot
  split
  · next b hb =>
    have hinv := h.builder b hb
    have htask := h.not_install_of_builder hb
    split
    · next hunread =>
      have hsaved : (⟨n.sm.storeSnapshot serde ⟨b.lastApplied, b.data⟩, n.task, none⟩ : ControlNode B).saved serde =
          n.saved serde := congrArg count (loadApplied_storeSnapshot _)
      constructor
      · refine h.storeSnapshot ⟨b.lastApplied, b.data⟩ htask htask ?_ fun _ hnone => absurd hnone (by simp)
        simp [position, hsaved]
      · intro snapshot hsnapshot
        cases hsnapshot
        have hresumable := h.resumable htask
        refine ⟨hinv.le.trans (hresumable.le.trans hresumable.bound), fun ns hns => hinv.read ns hns ?_⟩
        rw [hunread]
        exact not_mem_nil
    · exact ⟨h, fun _ hnone => absurd hnone (by simp)⟩
  · exact ⟨h, fun _ hnone => absurd hnone (by simp)⟩

theorem Inv.beginInstall {snapshot : Snapshot B} (hsound : snapshot.Sound serde log sm)
    (hbuilder : n.builder = none) :
    (n.beginInstall snapshot).Inv serde log sm := by
  unfold ControlNode.beginInstall
  split
  · refine mk_of_install h.quarantined rfl hbuilder hsound fun ns hns => ?_
    rw [data_restoreWrites, if_pos hns]
  · exact h

theorem Inv.writeInstall : n.writeInstall.Inv serde log sm := by
  unfold ControlNode.writeInstall
  split
  · next write pending snapshot htask =>
    obtain ⟨hbuilder, hsound, hdata⟩ := h.install _ _ htask
    exact mk_of_install h.quarantined rfl hbuilder hsound hdata
  · exact h

end

theorem Inv.adoptInstall (hserde : ∀ applied, serde.applied.Keeps applied)
    (h : n.Inv serde log sm) :
    (n.adoptInstall serde).Inv serde log sm := by
  unfold ControlNode.adoptInstall
  split
  · next snapshot htask =>
    obtain ⟨hbuilder, hsound, hrows⟩ := h.install _ _ htask
    have hsaved : ((n.sm.storeApplied serde snapshot.lastApplied).loadApplied serde).count =
        snapshot.lastApplied.count := by
      rw [loadApplied_storeApplied (hserde _)]
    apply mk_of_not_install (by rw [quarantined_storeApplied]; exact h.quarantined) rfl
    · simp only [position, saved, hsaved]
      refine (Resumable.refl hsound.bound hsound.data).congr fun ns hns => ?_
      rw [data_storeApplied _ hns]
      exact hrows ns hns
    · intro b hb
      rw [hbuilder] at hb
      cases hb
  · exact h

theorem Inv.keepInstall (h : n.Inv serde log sm) : (n.keepInstall serde).Inv serde log sm := by
  unfold ControlNode.keepInstall
  split
  · next snapshot htask =>
    refine h.storeSnapshot snapshot (by rw [htask]; rfl) rfl ?_ fun _ hb => hb
    simp only [position, htask]
    exact congrArg count (loadApplied_storeSnapshot snapshot)
  · exact h

end ControlNode

namespace ControlCluster
variable {s : ControlCluster B}

theorem Inv.step (hserde : ∀ applied, serde.applied.Keeps applied) (h : s.Inv serde log sm)
    {label : NodeName × ApplyEvent} (horderly : s.Orderly serde log label) :
    (s.step serde log label).Inv serde log sm := by
  obtain ⟨node, event⟩ := label
  have hnode := h.nodes node
  have hnext : (s.onNode serde log (s.nodes node) event).Inv serde log sm := by
    cases event with
    | beginBatch stop => exact hnode.beginBatch stop
    | execute => exact hnode.execute horderly
    | finishBatch => exact hnode.finishBatch hserde
    | crash => exact hnode.crash horderly.1 horderly.2
    | beginSnapshot => exact hnode.beginSnapshot horderly
    | readNamespace => exact hnode.readNamespace horderly
    | finishSnapshot => exact hnode.finishSnapshot.1
    | beginInstall i =>
      show ((s.snapshots[i]?).elim (s.nodes node) (s.nodes node).beginInstall).Inv serde log sm
      cases hsnapshot : s.snapshots[i]? with
      | none => exact hnode
      | some snapshot =>
        exact hnode.beginInstall (h.snapshots snapshot (mem_of_getElem? hsnapshot)) (Option.isNone_iff_eq_none.mp horderly)
    | writeInstall => exact hnode.writeInstall
    | adoptInstall => exact hnode.adoptInstall hserde
    | keepInstall => exact hnode.keepInstall
  constructor
  · intro other
    by_cases heq : other = node
    · subst heq
      simpa [ControlCluster.step] using hnext
    · simpa [ControlCluster.step, heq] using h.nodes other
  · intro snapshot hsnapshot
    obtain hold | hbuilt := mem_append.mp hsnapshot
    · exact h.snapshots snapshot hold
    · cases event with
      | finishSnapshot => exact hnode.finishSnapshot.2 snapshot (Option.mem_toList.mp hbuilt)
      | _ => cases hbuilt

theorem inv_start (hq : sm.quarantined = []) (happlied : sm.loadApplied serde = ⟨none⟩) :
    (start sm).Inv serde log sm := by
  constructor
  · intro node
    refine Inv.mk_of_not_install (n := ⟨sm, .idle, none⟩) hq rfl ?_ fun b hb => absurd hb (by simp)
    have hsaved : (⟨sm, .idle, none⟩ : ControlNode B).saved serde = 0 := congrArg count happlied
    simp only [position, hsaved]
    exact Resumable.refl (Nat.zero_le _) fun ns _ => ⟨0, Nat.zero_le _, resumes_start⟩
  · intro snapshot hsnapshot
    cases hsnapshot

theorem data_foldl_applyEntry (entries : List (EntryPayload B)) {sm : ControlStateMachine B}
    (hq : sm.quarantined = []) (ns : Namespace) :
    (entries.foldl (applyEntry serde) sm).store.data ns =
      entries.foldl (fun rows (entry : EntryPayload B) => entry.effect serde ns rows) (sm.store.data ns) := by
  induction entries generalizing sm with
  | nil => rfl
  | cons entry entries ih => rw [foldl_cons, foldl_cons, ih (quarantined_applyEntry hq entry), data_applyEntry hq]

theorem Inv.appliedOnce (hq : sm.quarantined = []) (h : s.Inv serde log sm) :
    s.AppliedOnce serde log sm := by
  intro node hidle hsaved ns hns
  have htask : (s.nodes node).task.isInstall = false := by
    cases hcase : (s.nodes node).task with
    | install pending snapshot =>
      rw [hcase] at hidle
      cases hidle
    | idle | batch | keep => rfl
  have hresumable := (h.nodes node).resumable htask
  have hbehind := hresumable.behind ns hns
  have hposition : (s.nodes node).position serde = (s.nodes node).saved serde := by
    have := hresumable.le
    have := hresumable.bound
    omega
  rw [hposition, hsaved] at hbehind
  obtain ⟨m, hm, hresumes⟩ := hbehind (by rw [slice_self]; exact fun _ hnil => absurd hnil not_mem_nil)
  rw [data_foldl_applyEntry log hq]
  exact hresumes.eq hm

/-- **Each entry once.** However the log is cut into batches, whatever crashes there are, and
whichever snapshots are built and installed: in a run of orderly steps a node that has applied the
whole log has the namespaces that come from applying each entry once, in order. -/
theorem appliedOnce_of_along (hserde : ∀ applied, serde.applied.Keeps applied)
    (hq : sm.quarantined = []) (happlied : sm.loadApplied serde = ⟨none⟩)
    {labels : List (NodeName × ApplyEvent)}
    (h : Along (step serde log) (Orderly serde log) (start sm) labels) :
    (run (step serde log) (start sm) labels).AppliedOnce serde log sm := by
  have hinv := @run_invariant _ _ _ _ (Inv serde log sm) (fun s label hs hlabel => hs.step hserde hlabel) _
      (inv_start hq happlied) _ h
  exact hinv.appliedOnce hq

end ControlCluster
end Steps

/-! ### Values as they are -/

inductive PlainValue
  | map (map : ShardMap)
  | applied (applied : AppliedState)
  | text (text : String)

def PlainValue.map? : PlainValue → Option ShardMap
  | .map value => some value
  | _ => none

def PlainValue.applied? : PlainValue → Option AppliedState
  | .applied value => some value
  | _ => none

def plainSerde : ControlSerde PlainValue where
  map := ⟨fun map => some (.map map), PlainValue.map?⟩
  applied := ⟨fun applied => some (.applied applied), PlainValue.applied?⟩
  snapshot := ⟨fun _ => none, fun _ => none⟩

def replicated : ControlStateMachine PlainValue where
  store := empty.put .shardMap mapKey (.map
    { version := 1
      totalShards := 1
      assignments := Table.empty.put 0 { owner := "a", replicas := ["b", "c"], epoch := 1, writable := true }
      localNode := "a" })
  quarantined := []
  haltThreshold := 2

def ownerIn (rows : Table String PlainValue) : Option NodeName :=
  ((rows.find? mapKey).bind PlainValue.map?).bind fun map => (map.get 0).map (·.owner)

def domainThenFailover : List (EntryPayload PlainValue) :=
  [.normal (.put "domain:def" "d" (.text "package")), .normal (.failoverShardAuto 0)]

def crashAndInstall : List (NodeName × ApplyEvent) :=
  [("n", .beginBatch 2), ("n", .execute), ("n", .crash), ("n", .beginBatch 2), ("n", .execute), ("n", .execute),
    ("n", .finishBatch), ("n", .beginSnapshot), ("n", .readNamespace), ("n", .readNamespace), ("n", .readNamespace),
    ("n", .readNamespace), ("n", .readNamespace), ("n", .finishSnapshot), ("m", .beginInstall 0), ("m", .writeInstall),
    ("m", .writeInstall), ("m", .writeInstall), ("m", .adoptInstall), ("m", .keepInstall)]

theorem appliedOnce_crashAndInstall :
    (run (step plainSerde domainThenFailover) (start replicated) crashAndInstall).AppliedOnce
      plainSerde domainThenFailover replicated := by
  have hkeeps : ∀ applied, plainSerde.applied.Keeps applied := fun _ => rfl
  apply appliedOnce_of_along hkeeps rfl rfl
  refine ⟨trivial, ?_, ⟨rfl, rfl⟩, trivial, ?_, ?_, trivial, rfl, ?_, ?_, ?_, ?_, ?_, trivial, rfl,
    trivial, trivial, trivial,
    trivial, trivial, trivial⟩
  all_goals
    rintro _ ⟨⟩
    first | rfl | exact fun _ => rfl

/-- A failover that is executed before a crash is executed once more after it, and goes to the next
replica. -/
theorem not_appliedOnce_failover_crash :
    ¬ (run (step plainSerde [.normal (.failoverShardAuto 0)]) (start replicated)
      [("n", .beginBatch 1), ("n", .execute), ("n", .crash), ("n", .beginBatch 1), ("n", .execute),
        ("n", .finishBatch)]).AppliedOnce plainSerde [.normal (.failoverShardAuto 0)] replicated := by
  intro honce
  have howner := congrArg ownerIn (honce "n" rfl rfl .shardMap (by decide))
  exact absurd howner (by decide)

end Nexora.Control
