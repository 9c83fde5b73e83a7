import Nexora.Graph.RocksDb
import Nexora.Graph.StoreReplay

/-!
# The two backends side by side

The in-memory backend returns events in the order of arrival, the RocksDB backend in the order of
their keys, where an equal key is overwritten. The two agree as long as every batch stands, in the
order of its times, strictly above what the node has stored before.
-/

namespace Nexora
open Lib List RocksDbStore Function

/-! ### What a store holds of a journal -/

namespace RocksDbStore
variable {S : Serde} {r : RocksDbStore} {qid : NexoraId} {journal events : NodeEvents}

def Stores (S : Serde) (r : RocksDbStore) (journal : NodeEvents) : Prop :=
  Forall₂ (fun row e => (ofLex row.1).1 = e.time ∧ decodeNodeEventJson S row.2 = some e) r.nodeEvents.rows journal

theorem Stores.times (h : r.Stores S journal) :
    (r.nodeEvents.rows.map fun row => (ofLex row.1).1) = journal.map TimedEvent.time := by
  rw [← forall₂_eq_eq_eq, forall₂_map_left_iff, forall₂_map_right_iff]
  exact h.imp fun _ _ hrow => hrow.1

theorem Stores.append (h : r.Stores S journal) (hadmits : r.Admits S qid [] events) :
    Stores S { r with nodeEvents := r.nodeEvents.putAll (journalRows S events) }
    (journal ++ events) := by
  unfold Stores
  rw [Table.rows_putAll hadmits.sorted]
  exact rel_append h (forall₂_journalRows hadmits.decodes)

theorem Stores.getNodeChangeEvents (h : r.Stores S journal) (hqid : qid.bytes.length ≤ 65535)
    (start stop : Option EventTime) (snapshots : List (EventTime × List UInt8)) :
    r.getNodeChangeEvents S qid start stop = .ok (InMemoryStore.getNodeChangeEvents ⟨journal, snapshots⟩ start stop) := by
  have hstop : (r.nodeEvents.rows.filter fun row => start.all fun s => toLex (s, 0) ≤ row.1).Pairwise fun a b =>
      (stop.all fun t => decide ((ofLex b.1).1 ≤ t)) → stop.all fun t => decide ((ofLex a.1).1 ≤ t) := by
    refine (r.nodeEvents.sorted.filter _).imp fun hab hb => ?_
    cases stop with
    | none => rfl
    | some t =>
      have hle := (Prod.Lex.le_iff'.mp (le_of_lt hab)).1
      exact decide_eq_true (le_trans hle (of_decide_eq_true hb))
  rw [RocksDbStore.getNodeChangeEvents]
  simp only [checkKey_of_le hqid]
  show (((r.nodeEvents.rows.filter _).takeWhile _).mapM (decodeRow S)) = _
  rw [takeWhile_eq_filter hstop, filter_filter]
  apply mapM_decodeRow_of_forall₂
  refine rel_filter ?_ h
  intro row e hrow
  have hstart : ∀ s : EventTime, toLex (s, 0) ≤ row.1 ↔ s ≤ e.time := fun s => by
    rw [← hrow.1, Prod.Lex.le_iff]
    simp [ofLex_toLex, ← le_iff_lt_or_eq]
  simp only [hstart, hrow.1, Bool.and_comm]

end RocksDbStore

/-! ### The same calls to both -/

structure PersistCall where
  qid : NexoraId
  events : NodeEvents

structure Backends where
  rocks : RocksDbPersistor
  memory : NexoraId → InMemoryStore

namespace Backends

def new (ns : String) : Backends := ⟨.openWithNamespace ns, fun _ => ⟨[], []⟩⟩

def persist (S : Serde) (b : Backends) (call : PersistCall) : Backends where
  rocks :=
    match b.rocks.persistNodeChangeEvents S call.qid call.events with
    | .ok rocks => rocks
    | .error _ => b.rocks
  memory := update b.memory call.qid ((b.memory call.qid).persistNodeChangeEvents call.events)

/-- The batch has room in the keys, is in the order of its times, stands above all that has been
persisted for the node, and each event is read back from its JSON text. -/
structure Admits (S : Serde) (b : Backends) (call : PersistCall) : Prop where
  length : call.events.length ≤ 2 ^ 32
  ordered : call.events.Pairwise fun a b => a.time ≤ b.time
  above : ∀ old ∈ (b.memory call.qid).journal, ∀ e ∈ call.events, old.time < e.time
  decodes : ∀ e ∈ call.events, decodeNodeEventJson S (encodeNodeEventJson S e) = some e

def Agree (S : Serde) (b : Backends) : Prop :=
  ∃ nodes, b.rocks.Refines nodes ∧ ∀ qid, qid.bytes.length ≤ 65535 → (nodes qid).Stores S (b.memory qid).journal

variable {S : Serde} {b : Backends} {call : PersistCall}

theorem agree_new (S : Serde) (ns : String) : (new ns).Agree S :=
  ⟨_, RocksDbPersistor.refines_openWithNamespace ns, fun _ _ => Forall₂.nil⟩

theorem Agree.persist (h : b.Agree S) (hcall : call.qid.bytes.length ≤ 65535 → b.Admits S call) :
    (b.persist S call).Agree S := by
  obtain ⟨nodes, hrefines, hstores⟩ := h
  by_cases hqid : call.qid.bytes.length ≤ 65535
  · have hok := hcall hqid
    have hadmits : (nodes call.qid).Admits S call.qid [] call.events := by
      refine ⟨hqid, hok.length, hok.ordered, fun row hrow e he => ?_, hok.decodes⟩
      have htime := mem_map_of_mem (f := fun row => (ofLex row.1).1) hrow
      rw [(hstores call.qid hqid).times] at htime
      obtain ⟨old, hold, heq⟩ := mem_map.mp htime
      exact heq ▸ hok.above old hold e he
    cases hpersist : b.rocks.persistNodeChangeEvents S call.qid call.events with
    | error e =>
      have hstore := persistNodeChangeEvents_of_le (S := S) hqid hok.length (nodes call.qid)
      rw [(RocksDbPersistor.persistNodeChangeEvents_eq_error_iff b.rocks (nodes call.qid)).mp hpersist] at hstore
      cases hstore
    | ok rocks =>
      obtain ⟨r, hr, hrefines⟩ := hrefines.persistNodeChangeEvents hpersist
      refine ⟨_, by rw [Backends.persist, hpersist]; exact hrefines, fun other hother => ?_⟩
      rw [persistNodeChangeEvents_eq_ok hr]
      by_cases heq : other = call.qid
      · subst heq
        simp only [Backends.persist, update_self]
        exact (hstores call.qid hother).append hadmits
      · simp only [Backends.persist, update_of_ne heq]
        exact hstores other hother
  · -- RocksDB refuses the call or, for an empty batch, does nothing.
    have hother : ∀ other : NexoraId, other.bytes.length ≤ 65535 → other ≠ call.qid := fun other hother heq =>
      hqid (heq ▸ hother)
    cases hpersist : b.rocks.persistNodeChangeEvents S call.qid call.events with
    | error e =>
      refine ⟨nodes, by rw [Backends.persist, hpersist]; exact hrefines, fun other hfits => ?_⟩
      simp only [Backends.persist, update_of_ne (hother other hfits)]
      exact hstores other hfits
    | ok rocks =>
      obtain ⟨r, -, hrefines⟩ := hrefines.persistNodeChangeEvents hpersist
      refine ⟨_, by rw [Backends.persist, hpersist]; exact hrefines, fun other hfits => ?_⟩
      simp only [Backends.persist, update_of_ne (hother other hfits)]
      exact hstores other hfits

/-- **The backends agree.** In every run of calls to any nodes whose batches are admitted, the two
backends return the same events in the same order, for every node with a key and every range of
times. -/
theorem getNodeChangeEvents_eq_of_along (S : Serde) (ns : String) {calls : List PersistCall}
    (h : Along (persist S) (fun b call => call.qid.bytes.length ≤ 65535 → b.Admits S call) (new ns) calls) {qid : NexoraId}
    (hqid : qid.bytes.length ≤ 65535) (start stop : Option EventTime) :
    (run (persist S) (new ns) calls).rocks.getNodeChangeEvents S qid start stop =
      .ok (((run (persist S) (new ns) calls).memory qid).getNodeChangeEvents start stop) := by
  have hstep : ∀ (b : Backends) (call : PersistCall), b.Agree S →
      (call.qid.bytes.length ≤ 65535 → b.Admits S call) → (b.persist S call).Agree S :=
    fun b call hb hcall => hb.persist hcall
  obtain ⟨nodes, hrefines, hstores⟩ := run_invariant hstep (agree_new S ns) h
  rw [hrefines.getNodeChangeEvents]
  exact (hstores qid hqid).getNodeChangeEvents hqid start stop _

def labelCall (label : Symbol) (time : EventTime) : PersistCall :=
  ⟨⟨[1]⟩, [⟨.labelAdded label, time⟩]⟩

def labelLibraries : Serde :=
  sampleLibraries [.obj [("event", .obj [("LabelAdded", .obj [("label", .str "A")])]), ("time", .int 5)],
    .obj [("event", .obj [("LabelAdded", .obj [("label", .str "B")])]), ("time", .int 5)],
    .obj [("event", .obj [("LabelAdded", .obj [("label", .str "B")])]), ("time", .int 6)]]

theorem labelLibraries_decode {label : Symbol} {time : EventTime}
    (h : (label, time) ∈ [("A", (5 : EventTime)), ("B", 5), ("B", 6)]) :
    decodeNodeEventJson labelLibraries (encodeNodeEventJson labelLibraries ⟨.labelAdded label, time⟩) =
      some ⟨.labelAdded label, time⟩ := by
  simp only [mem_cons, Prod.mk.injEq, not_mem_nil, or_false] at h
  rcases h with ⟨rfl, rfl⟩ | ⟨rfl, rfl⟩ | ⟨rfl, rfl⟩ <;> rfl

/-- Two labels added one after the other are returned by both backends. -/
theorem getNodeChangeEvents_two_labels :
    (run (persist labelLibraries) (new "default") [labelCall "A" 5, labelCall "B" 6]).rocks.getNodeChangeEvents
        labelLibraries ⟨[1]⟩ none none =
      .ok [⟨.labelAdded "A", 5⟩, ⟨.labelAdded "B", 6⟩] := by
  have halong : Along (persist labelLibraries)
      (fun b call => call.qid.bytes.length ≤ 65535 → b.Admits labelLibraries call) (new "default")
      [labelCall "A" 5, labelCall "B" 6] := by
    refine ⟨fun _ => ?_, fun _ => ?_, trivial⟩
    · exact ⟨by decide, pairwise_singleton _ _, fun _ hold => absurd hold not_mem_nil,
        forall_mem_singleton.mpr (labelLibraries_decode (by decide))⟩
    · refine ⟨by decide, pairwise_singleton _ _, ?_, forall_mem_singleton.mpr (labelLibraries_decode (by decide))⟩
      exact forall_mem_singleton.mpr (forall_mem_singleton.mpr (by decide))
  exact getNodeChangeEvents_eq_of_along labelLibraries "default" halong (by decide) none none

/-- Two labels with one time in two batches have one key: RocksDB returns the second only. -/
theorem getNodeChangeEvents_equal_times :
    (run (persist labelLibraries) (new "default") [labelCall "A" 5, labelCall "B" 5]).rocks.getNodeChangeEvents
        labelLibraries ⟨[1]⟩ none none = .ok [⟨.labelAdded "B", 5⟩] ∧
      ((run (persist labelLibraries) (new "default") [labelCall "A" 5, labelCall "B" 5]).memory ⟨[1]⟩).getNodeChangeEvents
        none none = [⟨.labelAdded "A", 5⟩, ⟨.labelAdded "B", 5⟩] :=
  ⟨rfl, rfl⟩

end Backends
end Nexora
