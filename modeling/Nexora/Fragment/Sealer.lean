import Nexora.Fragment.TimeTravel

/-!
# Sealing fragments

The sealer folds the changes of a window into one entry for each node, with the latest of their
times, and seals them as a fragment (`nexora-fragment/src/sealer.rs`). Its body, a line of JSON for
each entry, goes to the tiered store, while a query reads the file in the directory of the fragment.
Writing a line and reading it back are functions that are left open.
-/

namespace Nexora.Fragment
open Lib List TimeTravelQuery Table

/-! ### What happens to a node -/

inductive SealEvent (J : Type) where
  | propertySet (qid : List UInt8) (key : String) (value : J) (tsUs : Nat)
  | edgeAdded (source : List UInt8) (edge : Edge) (tsUs : Nat)

structure NodeState (V : Type) where
  properties : Table String V := empty
  edges : List Edge := []

namespace SealEvent
variable {J V : Type}

def node : SealEvent J → List UInt8
  | propertySet qid _ _ _ => qid
  | edgeAdded source _ _ => source

def tsUs : SealEvent J → Nat
  | propertySet _ _ _ tsUs => tsUs
  | edgeAdded _ _ tsUs => tsUs

def property? : SealEvent J → Option (String × J)
  | propertySet _ key value _ => some (key, value)
  | edgeAdded _ _ _ => none

def edge? : SealEvent J → Option Edge
  | propertySet _ _ _ _ => none
  | edgeAdded _ edge _ => some edge

def applyTo (toValue : J → V) (state : NodeState V) : SealEvent J → NodeState V
  | propertySet _ key value _ => { state with properties := state.properties.put key (toValue value) }
  | edgeAdded _ edge _ => { state with edges := state.edges ++ [edge] }

theorem foldl_applyTo (toValue : J → V) (events : List (SealEvent J)) (state : NodeState V) :
    events.foldl (applyTo toValue) state =
      ⟨state.properties.putAll
          ((events.filterMap property?).map fun row => (row.1, toValue row.2)),
        state.edges ++ events.filterMap edge?⟩ := by
  induction events generalizing state with
  | nil => simp [putAll]
  | cons event events ih =>
    rw [foldl_cons, ih]
    cases event with
    | propertySet qid key value tsUs => rfl
    | edgeAdded source edge tsUs =>
      exact congrArg (NodeState.mk _) (append_assoc ..)

end SealEvent

/-- The state of a node after the events up to a time, applied in the order of their times. -/
def stateAsOf {J V : Type} (toValue : J → V) (events : List (SealEvent J)) (node : List UInt8)
    (asOfUs : Nat) : Option (NodeState V) :=
  let past := (events.filter fun e => e.node = node && e.tsUs ≤ asOfUs).mergeSort
    fun a b => a.tsUs ≤ b.tsUs
  if past = [] then none else some (past.foldl (SealEvent.applyTo toValue) {})

theorem stateAsOf_eq {J V : Type} (toValue : J → V) {events : List (SealEvent J)}
    (h : events.Pairwise fun a b => a.tsUs ≤ b.tsUs) (node : List UInt8) (asOfUs : Nat) :
    stateAsOf toValue events node asOfUs =
      if (events.filter fun e => e.node = node && e.tsUs ≤ asOfUs) = [] then none
      else some ((events.filter fun e => e.node = node && e.tsUs ≤ asOfUs).foldl
        (SealEvent.applyTo toValue) {}) := by
  rw [stateAsOf, mergeSort_of_pairwise ((h.filter _).imp fun hle => decide_eq_true hle)]

/-! ### The sealer -/

structure NodeAccum (J : Type) where
  properties : Table String J := empty
  edges : List Edge := []
  lastTsUs : Nat := 0

def NodeAccum.record {J : Type} (acc : NodeAccum J) : SealEvent J → NodeAccum J
  | .propertySet _ key value tsUs =>
    { acc with
      properties := acc.properties.put key value
      lastTsUs := max acc.lastTsUs tsUs }
  | .edgeAdded _ edge tsUs =>
    { acc with edges := acc.edges ++ [edge], lastTsUs := max acc.lastTsUs tsUs }

/-- The fragment that is sealed: the time of a node is that of its latest change, or the end of the
window. -/
def NodeAccum.entry {J : Type} (endUs : Nat) (row : List UInt8 × NodeAccum J) : Entry J :=
  ⟨row.1, some (if row.2.lastTsUs = 0 then endUs else row.2.lastTsUs), row.2.properties, row.2.edges⟩

def Entry.map {J V : Type} (f : J → V) (entry : Entry J) : Entry V :=
  { entry with properties := entry.properties.map f }

/-- The lines of `nodes.jsonl`: how an entry is written as JSON, how a line is read, if it can be,
and the value that a JSON value stands for. -/
structure JsonLines (L J V : Type) where
  write : Entry J → L
  read : L → Option (Entry V)
  toValue : J → V

/-- The line of this entry is read as it was written. `serde_json` does not read every line that it
writes, and may read another number. -/
def JsonLines.Keeps {L J V : Type} (json : JsonLines L J V) (entry : Entry J) : Prop :=
  json.read (json.write entry) = some (entry.map json.toValue)

/-- The registry, with what is in the directories of its fragments, and the objects of the tiered
store. -/
structure TieredFragmentStore (L V : Type) where
  registry : FragmentStore L V
  objects : FragmentId → Option (List L)

def TieredFragmentStore.putFragment {L V : Type} (id : FragmentId) (metadata : FragmentMetadata V)
    (body : List L) (store : TieredFragmentStore L V) : TieredFragmentStore L V where
  registry := { store.registry with fragments := store.registry.fragments.put id metadata }
  objects := Function.update store.objects id (some body)

structure FragmentSealer (L J V : Type) where
  store : TieredFragmentStore L V := ⟨⟨empty, fun _ => none⟩, fun _ => none⟩
  namespaceName : String
  startUs : Nat
  nodes : Table (List UInt8) (NodeAccum J) := empty

namespace FragmentSealer
variable {L J V : Type}

def record (s : FragmentSealer L J V) (event : SealEvent J) : FragmentSealer L J V :=
  { s with
    nodes := s.nodes.put event.node (((s.nodes.find? event.node).getD {}).record event) }

def sealWindow (json : JsonLines L J V) (s : FragmentSealer L J V) (endUs uuid : Nat) :
    FragmentSealer L J V :=
  if s.nodes.rows.isEmpty then { s with startUs := endUs }
  else
    { s with
      store := s.store.putFragment ⟨s.startUs, endUs, uuid⟩
        { nodeCount := s.nodes.rows.length, namespaceName := s.namespaceName }
        ((s.nodes.rows.map (NodeAccum.entry endUs)).map json.write)
      startUs := endUs
      nodes := empty }

end FragmentSealer

def accumulate {J : Type} (events : List (SealEvent J)) : Table (List UInt8) (NodeAccum J) :=
  Table.upsertAll SealEvent.node {} NodeAccum.record Table.empty events

namespace NodeAccum
variable {J V : Type}

def lastTs (events : List (SealEvent J)) : Nat := (events.map SealEvent.tsUs).foldl max 0

theorem foldl_record (events : List (SealEvent J)) (acc : NodeAccum J) :
    events.foldl record acc =
      ⟨acc.properties.putAll (events.filterMap SealEvent.property?),
        acc.edges ++ events.filterMap SealEvent.edge?,
        (events.map SealEvent.tsUs).foldl max acc.lastTsUs⟩ := by
  induction events generalizing acc with
  | nil => simp [putAll]
  | cons event events ih =>
    rw [foldl_cons, ih]
    cases event with
    | propertySet qid key value tsUs => rfl
    | edgeAdded source edge tsUs => exact congrArg (mk _ · _) (append_assoc ..)

theorem lastTs_le_iff {events : List (SealEvent J)} {n : Nat} :
    lastTs events ≤ n ↔ ∀ e ∈ events, e.tsUs ≤ n := by
  suffices h : ∀ m, (events.map SealEvent.tsUs).foldl max m ≤ n ↔
      m ≤ n ∧ ∀ e ∈ events, e.tsUs ≤ n from
    (h 0).trans (and_iff_right (Nat.zero_le n))
  induction events with
  | nil => simp
  | cons event events ih =>
    intro m
    rw [map_cons, foldl_cons, ih, max_le_iff, forall_mem_cons, and_assoc]

end NodeAccum

open NodeAccum

theorem find?_accumulate {J : Type} (events : List (SealEvent J)) (node : List UInt8) :
    (accumulate events).find? node =
      if (events.filter fun e => e.node = node) = [] then none
      else some ((events.filter fun e => e.node = node).foldl record {}) := by
  rw [accumulate, find?_upsertAll]
  congr!

private theorem isEmpty_accumulate {J : Type} (events : List (SealEvent J)) :
    (accumulate events).rows.isEmpty = events.isEmpty := by
  cases events with
  | nil => rfl
  | cons event events =>
    rw [isEmpty_cons, isEmpty_eq_false_iff]
    intro hrows
    have hfind : (accumulate (event :: events)).find? event.node = none := by
      rw [Table.find?, hrows]
      rfl
    rw [find?_accumulate, filter_cons_of_pos (by simp), if_neg (cons_ne_nil _ _)] at hfind
    cases hfind

/-! ### What a query sees of a window -/

def NodeSnapshot.state {V : Type} (snapshot : NodeSnapshot V) : NodeState V :=
  ⟨snapshot.properties, snapshot.edges.map EdgeSnapshot.edge⟩

section Windows
variable {L J V F : Type} (cmp : Comparisons V F) (json : JsonLines L J V) (node : List UInt8)
  (asOfUs : Nat)

structure Replays (toValue : J → V) (entries : List (Nat × Entry V))
    (events : List (SealEvent J)) : Prop where
  eq_nil_iff : entries = [] ↔ events = []
  state_foldl : ∀ snapshot : NodeSnapshot V,
    (entries.foldl NodeSnapshot.applyEntry snapshot).state =
    events.foldl (SealEvent.applyTo toValue) snapshot.state

variable {toValue : J → V}

theorem Replays.nil : Replays toValue [] ([] : List (SealEvent J)) := ⟨by simp, fun _ => rfl⟩

variable {events : List (SealEvent J)}

theorem Replays.append {entries more : List (Nat × Entry V)} {later : List (SealEvent J)}
    (h : Replays toValue entries events) (hmore : Replays toValue more later) :
    Replays toValue (entries ++ more) (events ++ later) where
  eq_nil_iff := by rw [append_eq_nil_iff, append_eq_nil_iff, h.eq_nil_iff, hmore.eq_nil_iff]
  state_foldl snapshot := by rw [foldl_append, foldl_append, hmore.state_foldl, h.state_foldl]

theorem Replays.flatMap {A : Type} {windows : List A} {entries : A → List (Nat × Entry V)}
    {events : A → List (SealEvent J)}
    (h : ∀ w ∈ windows, Replays toValue (entries w) (events w)) :
    Replays toValue (windows.flatMap entries) (windows.flatMap events) := by
  induction windows with
  | nil => exact .nil
  | cons w windows ih =>
    exact (h w mem_cons_self).append (ih fun w hw => h w (mem_cons_of_mem _ hw))

def windowEntry (endUs : Nat) (events : List (SealEvent J)) : Entry J :=
  entry endUs (node, (events.filter fun e => e.node = node).foldl record {})

def windowTs (endUs : Nat) (events : List (SealEvent J)) : Nat :=
  if lastTs (events.filter fun e => e.node = node) = 0 then endUs
  else lastTs (events.filter fun e => e.node = node)

variable {json} in
private theorem seesLines_write {entries : List (Entry J)} (h : ∀ entry ∈ entries, json.Keeps entry)
    (q : TimeTravelQuery V F) (endUs : Nat) :
    q.seesLines json.read endUs (entries.map json.write) =
      entries.filterMap fun entry => q.sees endUs (entry.map json.toValue) := by
  rw [seesLines, filterMap_map]
  refine filterMap_congr fun entry hentry => ?_
  rw [Function.comp_apply, h entry hentry, Option.bind_some]

theorem ofNode_accumulate (endUs : Nat) (events : List (SealEvent J)) :
    ofNode node (((accumulate events).rows.map (entry endUs)).filterMap fun entry =>
        (asOf asOfUs : TimeTravelQuery V F).sees endUs (entry.map toValue)) =
      if (events.filter fun e => e.node = node) = [] ∨ asOfUs < windowTs node endUs events then []
      else [(windowTs node endUs events, (windowEntry node endUs events).map toValue)] := by
  have hsees : ∀ row : List UInt8 × NodeAccum J,
      ((asOf asOfUs : TimeTravelQuery V F).sees endUs ((entry endUs row).map toValue)).filter
          (fun stamped => stamped.2.id = node) =
        if decide (row.1 = node) then
          (asOf asOfUs : TimeTravelQuery V F).sees endUs ((entry endUs row).map toValue)
        else none := by
    intro row
    rw [sees_asOf]
    by_cases hnode : row.1 = node <;> split <;> simp [entry, Entry.map, hnode]
  have hrows : ((accumulate events).rows.filter fun row => row.1 = node) =
      ((accumulate events).find? node).toList.map fun acc => (node, acc) := by
    rw [← filter_rows_eq]
    congr!
  rw [ofNode, filterMap_map, filter_filterMap]
  simp only [Function.comp_apply, hsees]
  rw [← filterMap_filter, hrows, find?_accumulate]
  by_cases hnil : (events.filter fun e => e.node = node) = []
  · rw [if_pos hnil, if_pos (.inl hnil)]
    rfl
  · have hts : ((windowEntry node endUs events).map toValue).timestamp.getD endUs =
        windowTs node endUs events := by
      rw [windowEntry, foldl_record]
      rfl
    have hseen : (asOf asOfUs : TimeTravelQuery V F).sees endUs
          ((windowEntry node endUs events).map toValue) =
        if windowTs node endUs events ≤ asOfUs then
          some (windowTs node endUs events, (windowEntry node endUs events).map toValue)
        else none := by
      rw [sees_asOf, hts]
    rw [windowEntry] at hseen
    rw [if_neg hnil, Option.toList_some, map_singleton]
    by_cases hle : windowTs node endUs events ≤ asOfUs
    · rw [if_pos hle] at hseen
      rw [if_neg (not_or.mpr ⟨hnil, not_lt.mpr hle⟩)]
      exact filterMap_cons_some hseen
    · rw [if_neg hle] at hseen
      rw [if_pos (.inr (not_le.mp hle))]
      exact filterMap_cons_none hseen

private theorem state_applyEntry_windowEntry (ts endUs : Nat) (events : List (SealEvent J))
    (snapshot : NodeSnapshot V) :
    (snapshot.applyEntry (ts, (windowEntry node endUs events).map toValue)).state =
      (events.filter fun e => e.node = node).foldl (SealEvent.applyTo toValue)
        snapshot.state := by
  rw [SealEvent.foldl_applyTo, ← putAll_rows_map_putAll]
  simp only [NodeSnapshot.applyEntry, NodeSnapshot.state, windowEntry, Entry.map, entry,
    foldl_record, nil_append, map_append, map_map]
  congr 2
  exact map_id _

/-- The time of a query does not come between the changes of a node in one fragment: they are all in
its past, and the fragment begins before it, or they are all in its future. -/
def Undivided (w : FragmentId × List (SealEvent J)) : Prop :=
  ∀ node, (w.1.startUs < asOfUs ∧ ∀ e ∈ w.2, e.node = node → e.tsUs ≤ asOfUs) ∨
    ∀ e ∈ w.2, e.node = node → asOfUs < e.tsUs

/-- The lines of a fragment. -/
def bodyOf (w : FragmentId × List (SealEvent J)) : List L :=
  ((accumulate w.2).rows.map (entry w.1.endUs)).map json.write

/-- Every line of a fragment is read as it was written. -/
def Readable (w : FragmentId × List (SealEvent J)) : Prop :=
  ∀ record ∈ (accumulate w.2).rows.map (entry w.1.endUs), json.Keeps record

theorem windowTs_eq (hpositive : ∀ e ∈ events, 0 < e.tsUs)
    (hne : (events.filter fun e => e.node = node) ≠ []) (endUs : Nat) :
    windowTs node endUs events = lastTs (events.filter fun e => e.node = node) := by
  obtain ⟨e, he⟩ := exists_mem_of_ne_nil _ hne
  have hlast := lastTs_le_iff.mp le_rfl e he
  have hpos := hpositive e (mem_of_mem_filter he)
  exact if_neg (by omega)

variable {json asOfUs} in
private theorem replays_window {w : FragmentId × List (SealEvent J)} (h : Undivided asOfUs w)
    (hreadable : Readable json w) (hend : 0 < w.1.endUs) (hpositive : ∀ e ∈ w.2, 0 < e.tsUs)
    {files : FragmentId → Option (List L)} (hfiles : files w.1 = some (bodyOf json w))
    (metadata : FragmentMetadata V) :
    Replays json.toValue
      (ofNode node ((asOf asOfUs : TimeTravelQuery V F).replayedOf cmp json.read files
        (w.1, metadata)))
      (w.2.filter fun e => e.node = node && e.tsUs ≤ asOfUs) := by
  have hmine : ∀ e ∈ w.2.filter (fun e => e.node = node), e ∈ w.2 ∧ e.node = node := by simp
  rw [replayedOf, selects_asOf, hfiles, Option.getD_some, bodyOf, seesLines_write hreadable]
  rcases h node with ⟨hstart, hpast⟩ | hfuture
  · have hoverlaps : w.1.overlaps 0 asOfUs = true := by simp [FragmentId.overlaps, hstart, hend]
    have hevents : (w.2.filter fun e => e.node = node && e.tsUs ≤ asOfUs) =
        w.2.filter fun e => e.node = node :=
      filter_congr fun e he => by by_cases hnode : e.node = node <;> simp [hnode, hpast e he]
    rw [if_pos hoverlaps, hevents, ofNode_accumulate]
    by_cases hnil : (w.2.filter fun e => e.node = node) = []
    · rw [if_pos (.inl hnil), hnil]
      exact .nil
    · have hts : windowTs node w.1.endUs w.2 ≤ asOfUs := by
        rw [windowTs_eq node hpositive hnil, lastTs_le_iff]
        exact fun e he => hpast e (hmine e he).1 (hmine e he).2
      rw [if_neg (not_or.mpr ⟨hnil, not_lt.mpr hts⟩)]
      exact ⟨by simp [hnil], fun snapshot => state_applyEntry_windowEntry node _ _ _ snapshot⟩
  · have hevents : (w.2.filter fun e => e.node = node && e.tsUs ≤ asOfUs) = [] :=
      filter_eq_nil_iff.mpr fun e he => by simpa using fun hnode => hfuture e he hnode
    rw [hevents]
    split
    · rw [ofNode_accumulate, if_pos]
      · exact .nil
      · by_cases hnil : (w.2.filter fun e => e.node = node) = []
        · exact .inl hnil
        · obtain ⟨e, he⟩ := exists_mem_of_ne_nil _ hnil
          refine .inr ((hfuture e (hmine e he).1 (hmine e he).2).trans_le ?_)
          rw [windowTs_eq node hpositive hnil]
          exact lastTs_le_iff.mp le_rfl e he
    · exact .nil

end Windows

/-! ### Runs -/

inductive SealStep (J : Type) where
  | record (event : SealEvent J)
  | sealWindow (endUs uuid : Nat)

/-- The sealer, the events of its window and, by their fragments, the events that are sealed. -/
structure SealerRun (L J V : Type) where
  sealer : FragmentSealer L J V
  pending : List (SealEvent J) := []
  windows : List (FragmentId × List (SealEvent J)) := []

namespace SealerRun
variable {L J V F : Type} (json : JsonLines L J V)

def step (s : SealerRun L J V) : SealStep J → SealerRun L J V
  | .record event =>
    { s with sealer := s.sealer.record event, pending := s.pending ++ [event] }
  | .sealWindow endUs uuid =>
    { sealer := s.sealer.sealWindow json endUs uuid
      windows :=
        if s.pending.isEmpty then s.windows
        else s.windows ++ [(⟨s.sealer.startUs, endUs, uuid⟩, s.pending)] }

def sealedEvents (s : SealerRun L J V) : List (SealEvent J) := s.windows.flatMap Prod.snd

/-- Events come in the order of their times, none of which is 0, and every window ends after it has
begun. -/
def InOrder (s : SealerRun L J V) : SealStep J → Prop
  | .record event => 0 < event.tsUs ∧ ∀ e ∈ s.sealedEvents ++ s.pending, e.tsUs ≤ event.tsUs
  | .sealWindow endUs _ => s.sealer.startUs < endUs

structure Sound (s : SealerRun L J V) : Prop where
  nodes : s.sealer.nodes = accumulate s.pending
  fragments : s.sealer.store.registry.fragments.rows.map Prod.fst = s.windows.map Prod.fst
  objects : ∀ w ∈ s.windows, s.sealer.store.objects w.1 = some (bodyOf json w)
  bounds : ∀ w ∈ s.windows, w.1.startUs < s.sealer.startUs ∧ 0 < w.1.endUs
  sorted : (s.sealedEvents ++ s.pending).Pairwise fun a b => a.tsUs ≤ b.tsUs
  positive : ∀ e ∈ s.sealedEvents ++ s.pending, 0 < e.tsUs

variable {json} {s : SealerRun L J V}

theorem sound_record (h : s.Sound json) {event : SealEvent J}
    (hevent : s.InOrder (.record event)) : (s.step json (.record event)).Sound json where
  nodes := by
    show s.sealer.nodes.put _ _ = accumulate (s.pending ++ [event])
    rw [h.nodes, accumulate, accumulate, upsertAll, upsertAll, foldl_append]
    rfl
  fragments := h.fragments
  objects := h.objects
  bounds := h.bounds
  sorted := by
    show (s.sealedEvents ++ (s.pending ++ [event])).Pairwise _
    rw [← append_assoc]
    refine pairwise_append.mpr ⟨h.sorted, pairwise_singleton _ _, fun e he e' he' => ?_⟩
    rw [mem_singleton.mp he']
    exact hevent.2 e he
  positive := by
    show ∀ e ∈ s.sealedEvents ++ (s.pending ++ [event]), 0 < e.tsUs
    rw [← append_assoc]
    intro e he
    rcases mem_append.mp he with he | he
    · exact h.positive e he
    · rw [mem_singleton.mp he]
      exact hevent.1

theorem sound_sealWindow (h : s.Sound json) {endUs uuid : Nat}
    (hend : s.InOrder (.sealWindow endUs uuid)) :
    (s.step json (.sealWindow endUs uuid)).Sound json := by
  have hend : s.sealer.startUs < endUs := hend
  have hempty : s.sealer.nodes.rows.isEmpty = s.pending.isEmpty := by
    rw [h.nodes, isEmpty_accumulate]
  cases hpending : s.pending.isEmpty with
  | true =>
    have hnil : s.pending = [] := isEmpty_iff.mp hpending
    have hevents : s.sealedEvents ++ s.pending = s.sealedEvents ++ [] := by rw [hnil]
    simp only [step, FragmentSealer.sealWindow, hempty, hpending, if_true]
    exact ⟨hnil ▸ h.nodes, h.fragments, h.objects,
      fun w hw => ⟨(h.bounds w hw).1.trans hend, (h.bounds w hw).2⟩, hevents ▸ h.sorted,
      hevents ▸ h.positive⟩
  | false =>
    have hevents : sealedEvents ⟨s.sealer, [],
          s.windows ++ [(⟨s.sealer.startUs, endUs, uuid⟩, s.pending)]⟩ ++ [] =
        s.sealedEvents ++ s.pending := by
      simp [sealedEvents]
    have hbefore : ∀ id ∈ s.windows.map Prod.fst,
        id < (⟨s.sealer.startUs, endUs, uuid⟩ : FragmentId) := by
      intro id hid
      obtain ⟨w, hw, rfl⟩ := mem_map.mp hid
      exact FragmentId.lt_of_startUs_lt (h.bounds w hw).1
    simp only [step, FragmentSealer.sealWindow, hempty, hpending, Bool.false_eq_true, if_false]
    refine ⟨rfl, ?_, ?_, ?_, ?_, ?_⟩
    · have hrows : ∀ row ∈ s.sealer.store.registry.fragments.rows,
          row.1 < (⟨s.sealer.startUs, endUs, uuid⟩ : FragmentId) :=
        fun row hrow => hbefore _ (h.fragments ▸ mem_map_of_mem hrow)
      show (putRow _ _ s.sealer.store.registry.fragments.rows).map Prod.fst = _
      rw [putRow_of_forall_lt hrows, map_append, map_append, h.fragments]
      rfl
    · intro w hw
      rcases mem_append.mp hw with hw | hw
      · exact (Function.update_of_ne (hbefore _ (mem_map_of_mem hw)).ne _ _).trans (h.objects w hw)
      · rw [mem_singleton.mp hw, h.nodes]
        exact Function.update_self ..
    · intro w hw
      rcases mem_append.mp hw with hw | hw
      · exact ⟨(h.bounds w hw).1.trans hend, (h.bounds w hw).2⟩
      · rw [mem_singleton.mp hw]
        exact ⟨hend, Nat.zero_lt_of_lt hend⟩
    · exact hevents ▸ h.sorted
    · exact hevents ▸ h.positive

variable (json) in
/-- The sealer of a namespace after some steps, its first window beginning at a time. -/
def after (namespaceName : String) (startUs : Nat) (steps : List (SealStep J)) :
    SealerRun L J V :=
  run (step json) { sealer := { namespaceName := namespaceName, startUs := startUs } } steps

variable {namespaceName : String} {startUs : Nat} {steps : List (SealStep J)}

theorem sound_after (h : Along (step json) InOrder (after json namespaceName startUs []) steps) :
    (after json namespaceName startUs steps).Sound json := by
  refine run_invariant (fun s step hs hstep => ?_) ⟨rfl, rfl, ?_, ?_, Pairwise.nil, ?_⟩ h
  · cases step with
    | record event => exact sound_record hs hstep
    | sealWindow endUs uuid => exact sound_sealWindow hs hstep
  all_goals exact fun _ hnone => absurd hnone not_mem_nil

theorem findNode_of_sound (h : s.Sound json) (cmp : Comparisons V F)
    {files : FragmentId → Option (List L)}
    (hfiles : ∀ w ∈ s.windows, files w.1 = s.sealer.store.objects w.1)
    (hreadable : ∀ w ∈ s.windows, Readable json w) {asOfUs : Nat}
    (hasOf : ∀ w ∈ s.windows, Undivided asOfUs w) (node : List UInt8) :
    (findNode ((asOf asOfUs).executeTimeTravel cmp json.read
        ⟨s.sealer.store.registry.fragments, files⟩) node).map NodeSnapshot.state =
      stateAsOf json.toValue s.sealedEvents node asOfUs := by
  let seen (id : FragmentId) : List (Nat × Entry V) :=
    ofNode node ((asOf asOfUs : TimeTravelQuery V F).replayedOf cmp json.read files
      (id, { namespaceName := "" }))
  have hreplayed : ofNode node ((asOf asOfUs).replayed cmp json.read
        ⟨s.sealer.store.registry.fragments, files⟩) =
      s.windows.flatMap fun w => seen w.1 := by
    rw [replayed_eq_flatMap, ofNode, filter_flatMap]
    have hrow : ∀ row : FragmentId × FragmentMetadata V,
        ((asOf asOfUs).replayedOf cmp json.read files row).filter
            (fun stamped => stamped.2.id = node) = seen row.1 := by
      intro row
      simp [seen, ofNode, replayedOf, selects_asOf]
    simp only [hrow]
    rw [← flatMap_map Prod.fst seen, h.fragments, flatMap_map]
  have hreplays : Replays json.toValue (s.windows.flatMap fun w => seen w.1)
      (s.windows.flatMap fun w => w.2.filter fun e => e.node = node && e.tsUs ≤ asOfUs) :=
    Replays.flatMap fun w hw => replays_window cmp node (hasOf w hw) (hreadable w hw)
      (h.bounds w hw).2
      (fun e he => h.positive e (mem_append_left _ (mem_flatMap.mpr ⟨w, hw, he⟩)))
      ((hfiles w hw).trans (h.objects w hw)) _
  rw [findNode_executeTimeTravel cmp json.read rfl, hreplayed,
    stateAsOf_eq json.toValue (pairwise_append.mp h.sorted).1, sealedEvents, filter_flatMap]
  by_cases hnil : (s.windows.flatMap fun w => seen w.1) = []
  · rw [if_pos hnil, if_pos (hreplays.eq_nil_iff.mp hnil), Option.map_none]
  · rw [if_neg hnil, if_neg (mt hreplays.eq_nil_iff.mpr hnil), Option.map_some, snapshotOf,
      hreplays.state_foldl]
    rfl

/-- **Time travel gives the state of its time**, for events that come in the order of their times,
windows that end after they begin, bodies that are in the directories of their fragments and are
read as they were written, and a time that divides no entry of a fragment. -/
theorem state_executeTimeTravel
    (h : Along (step json) InOrder (after json namespaceName startUs []) steps)
    (cmp : Comparisons V F) {files : FragmentId → Option (List L)}
    (hfiles : ∀ w ∈ (after json namespaceName startUs steps).windows,
      files w.1 = (after json namespaceName startUs steps).sealer.store.objects w.1)
    (hreadable : ∀ w ∈ (after json namespaceName startUs steps).windows, Readable json w)
    {asOfUs : Nat}
    (hasOf : ∀ w ∈ (after json namespaceName startUs steps).windows, Undivided asOfUs w)
    (node : List UInt8) :
    (findNode ((asOf asOfUs).executeTimeTravel cmp json.read
        ⟨(after json namespaceName startUs steps).sealer.store.registry.fragments, files⟩)
        node).map NodeSnapshot.state =
      stateAsOf json.toValue (after json namespaceName startUs steps).sealedEvents node asOfUs :=
  findNode_of_sound (sound_after h) cmp hfiles hreadable hasOf node

/-- Lines that are the entries themselves. -/
def plainLines : JsonLines (Entry Nat) Nat Nat := ⟨id, some, id⟩

private theorem plainLines_keeps (entry : Entry Nat) : plainLines.Keeps entry := by
  have hmap : entry.properties.map id = entry.properties :=
    ext_find? fun key => by rw [Table.find?_map, Option.map_id_fun, id]
  show some entry = some { entry with properties := entry.properties.map id }
  rw [hmap]

/-- A property of one node is set at 1500 and again at 1600, and the window from 1000 to 2000 is
sealed. -/
def twoWrites : SealerRun (Entry Nat) Nat Nat :=
  after plainLines "graph" 1000 [.record (.propertySet [1] "speed" 40 1500),
    .record (.propertySet [1] "speed" 50 1600), .sealWindow 2000 7]

theorem state_executeTimeTravel_twoWrites :
    (findNode ((asOf 2000).executeTimeTravel natComparisons plainLines.read
        ⟨twoWrites.sealer.store.registry.fragments, twoWrites.sealer.store.objects⟩) [1]).map
          NodeSnapshot.state =
      stateAsOf plainLines.toValue twoWrites.sealedEvents [1] 2000 := by
  have hinOrder : Along (step plainLines) InOrder (after plainLines "graph" 1000 [])
      [.record (.propertySet [1] "speed" 40 1500), .record (.propertySet [1] "speed" 50 1600),
        .sealWindow 2000 7] := by
    refine ⟨⟨by decide, fun _ hnone => absurd hnone not_mem_nil⟩, ⟨by decide, fun e he => ?_⟩,
      (by decide : 1000 < 2000), trivial⟩
    rw [mem_singleton.mp he]
    decide
  refine state_executeTimeTravel hinOrder natComparisons (fun _ _ => rfl)
    (fun _ _ record _ => plainLines_keeps record) (fun w hw node => ?_) [1]
  rw [mem_singleton.mp hw]
  refine .inl ⟨by decide, fun e he _ => ?_⟩
  rcases mem_pair.mp he with rfl | rfl <;> decide

/-- As of 1550 the first write is not seen, because its entry has the time of the second. And of
what is sealed, a query as of 2000 finds nothing at all: the bodies are not in the directories. -/
theorem not_state_executeTimeTravel :
    (findNode ((asOf 1550).executeTimeTravel natComparisons plainLines.read
        ⟨twoWrites.sealer.store.registry.fragments, twoWrites.sealer.store.objects⟩) [1]).map
          NodeSnapshot.state = none ∧
      (stateAsOf id twoWrites.sealedEvents [1] 1550).map
        (fun state => state.properties.find? "speed") = some (some 40) ∧
      (findNode ((asOf 2000).executeTimeTravel natComparisons plainLines.read
        twoWrites.sealer.store.registry) [1]).map NodeSnapshot.state = none ∧
      (stateAsOf id twoWrites.sealedEvents [1] 2000).map
        (fun state => state.properties.find? "speed") = some (some 50) := by
  have hsorted : twoWrites.sealedEvents.Pairwise fun a b => a.tsUs ≤ b.tsUs := by
    show List.Pairwise _ [_, _]
    exact pairwise_pair.mpr (by decide)
  rw [stateAsOf_eq id hsorted, stateAsOf_eq id hsorted]
  exact ⟨rfl, rfl, rfl, rfl⟩

end SealerRun
end Nexora.Fragment
