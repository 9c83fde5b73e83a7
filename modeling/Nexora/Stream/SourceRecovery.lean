import Nexora.Stream.Pipeline
import Nexora.Lib.Numeral
import Mathlib.Data.List.Perm.Basic

/-!
# Resuming at a checkpoint

After a crash the pipeline is seeded with the offsets of a manifest and started again
(`nexora-stream/src/lib.rs`). Only the Kafka source seeks. A file source reads the offset store when
it connects, if it has one (`file_source.rs`, `rocksdb_offset_store.rs`).
-/

namespace Nexora.Stream
open Lib List Option Table Prod Function Nat

/-! ### Offset stores -/

inductive StoreKind where
  | inMemory
  | rocksDb

inductive OffsetStore where
  | inMemory (offsets : List UInt8 × List UInt8 → Option Nat)
  | rocksDb (numericOffsets : List UInt8 → Option (List UInt8))

namespace OffsetStore

def kind : OffsetStore → StoreKind
  | inMemory _ => .inMemory
  | rocksDb _ => .rocksDb

def save (topic partition : List UInt8) (offset : Nat) : OffsetStore → OffsetStore
  | inMemory offsets => inMemory (update offsets (topic, partition) (some offset))
  | rocksDb numericOffsets => rocksDb (update numericOffsets (offsetKey topic partition) (some (toBe 8 offset)))

def load (topic partition : List UInt8) : OffsetStore → Except String (Option Nat)
  | inMemory offsets => .ok (offsets (topic, partition))
  | rocksDb numericOffsets =>
    match numericOffsets (offsetKey topic partition) with
    | none => .ok none
    | some bytes => if bytes.length = 8 then .ok (some (ofBe bytes)) else .error "corrupt numeric offset (not 8 bytes)"

end OffsetStore

/-! ### Sources -/

/-- The offset store of a file source, if it has one: that of the pipeline or another. -/
inductive StoreUse where
  | none
  | shared
  | own

inductive Source where
  | kafka (topic : List UInt8)
  | file (topic : List UInt8) (offsetStore : StoreUse)
  | kinesis (streamName : List UInt8)
  | mqtt (topics : List (List UInt8))
  | webSocket (topic : List UInt8)
  | zenoh (topic : List UInt8)
  | mock (topic : List UInt8)

def onePartition : List UInt8 := Json.ascii "0"

namespace Source

def topic : Source → List UInt8
  | kafka topic => topic
  | file topic _ => topic
  | kinesis streamName => streamName
  | mqtt topics => topics.head?.getD []
  | webSocket topic => topic
  | zenoh topic => topic
  | mock topic => topic

def partitions : Source → Set (List UInt8)
  | kafka _ => { partition | ∃ n < 2 ^ 31, partition = numeral 10 n }
  | kinesis _ => Set.univ
  | _ => { onePartition }

end Source

/-- A source with what it finds when the pipeline starts: whether it can connect, the positions that
the broker has for its consumer group, an offset store of its own and whether loading an offset
succeeds, the positions behind the sequence numbers that it has committed for its shards, and which
seeks succeed. -/
structure Installed where
  source : Source
  connected : Bool
  broker : Int → Int
  ownStore : OffsetStore
  loaded : Bool
  shards : List UInt8 → Nat
  sought : SourceOffset → Bool

inductive Consumer where
  | kafka (topic : List UInt8) (position : Int → Int)
  | file (nextLine : Nat)
  | kinesis (position : List UInt8 → Nat)
  | counted (seq : Nat)

def parseI32 (text : List UInt8) : Option Int :=
  if text.head? = some 0x2D then
    if text.tail = [] then none else ((numeralValue 10 text.tail).filter (· ≤ 2 ^ 31)).map fun n => -Int.ofNat n
  else (parseNumeral 10 (2 ^ 31) text).map Int.ofNat

def kafkaPartition (partition : List UInt8) : Int := (parseI32 partition).getD 0

def asI64 (n : Nat) : Int :=
  if n % 2 ^ 64 < 2 ^ 63 then (n % 2 ^ 64 : Nat) else (n % 2 ^ 64 : Nat) - 2 ^ 64

namespace Consumer

def next (partition : List UInt8) : Consumer → Int
  | kafka _ position => position (kafkaPartition partition)
  | file nextLine => nextLine
  | kinesis position => position partition
  | counted seq => seq

/-- The consumer of a topic goes to the position behind each of the topic's offsets, unless a seek
fails. -/
def seekKafka (topic : List UInt8) (sought : SourceOffset → Bool) :
    List SourceOffset → (Int → Int) → Option (Int → Int)
  | [], position => some position
  | offset :: offsets, position =>
    if offset.topic ≠ topic then seekKafka topic sought offsets position
    else if sought offset then
      seekKafka topic sought offsets (update position (kafkaPartition offset.partition) (asI64 offset.offset + 1))
    else none

/-- The other sources do nothing. -/
def seek (sought : SourceOffset → Bool) (offsets : List SourceOffset) : Consumer → Option Consumer
  | kafka topic position => (seekKafka topic sought offsets position).map (kafka topic)
  | consumer => some consumer

end Consumer

/-! ### Seeding and starting -/

/-- A file is read from its beginning if no offset can be loaded. -/
def firstLine (topic : List UInt8) (loaded : Bool) : Option OffsetStore → Nat
  | none => 0
  | some store =>
    match loaded, store.load topic onePartition with
    | true, .ok (some committed) => (committed + 1) % 2 ^ 64
    | _, _ => 0

namespace Installed

def connect (i : Installed) (store : OffsetStore) : Option Consumer :=
  if i.connected then
    some (match i.source with
      | .kafka topic => .kafka topic i.broker
      | .file topic .none => .file (firstLine topic i.loaded none)
      | .file topic .shared => .file (firstLine topic i.loaded (some store))
      | .file topic .own => .file (firstLine topic i.loaded (some i.ownStore))
      | .kinesis _ => .kinesis i.shards
      | .mqtt _ => .counted 0
      | .webSocket _ => .counted 0
      | .zenoh _ => .counted 0
      | .mock _ => .counted 0)
  else none

end Installed

def splitKey (row : List UInt8 × Nat) : Option SourceOffset :=
  (splitOnce 0x3A row.1).map fun parts => ⟨parts.1, parts.2, row.2⟩

/-- Put offsets into the offset store, as far as they can be saved. -/
def seedStore (saved : SourceOffset → Bool) (store : OffsetStore)
    (resumeOffsets : List (List UInt8 × Nat)) : OffsetStore :=
  resumeOffsets.foldl (fun store row =>
    match splitKey row with
    | some o => if saved o then store.save o.topic o.partition o.offset else store
    | none => store) store

structure IngestionPipeline where
  sources : List Installed
  store : OffsetStore
  latestOffsets : Offsets

namespace IngestionPipeline

/-- The offsets of a plan, in the order in which they are gone through, go into the tracker and into
the offset store. -/
def seedRecovery (pipeline : IngestionPipeline) (saved : SourceOffset → Bool)
    (resumeOffsets : List (List UInt8 × Nat)) :
    IngestionPipeline :=
  { pipeline with
    latestOffsets := pipeline.latestOffsets.putAll resumeOffsets
    store := seedStore saved pipeline.store resumeOffsets }

def connectAll (store : OffsetStore) : List Installed → Option (List (Installed × Consumer))
  | [] => some []
  | i :: sources =>
    match i.connect store, connectAll store sources with
    | some consumer, some connected => some ((i, consumer) :: connected)
    | _, _ => none

def seekAll (offsets : List SourceOffset) :
    List (Installed × Consumer) → Option (List (Installed × Consumer))
  | [] => some []
  | (i, consumer) :: connected =>
    match consumer.seek i.sought offsets, seekAll offsets connected with
    | some consumer, some sought => some ((i, consumer) :: sought)
    | _, _ => none

/-- All sources are connected and then, if there are offsets to resume from, told where to seek;
`latest` has the rows of the tracker in the order in which they are gone through. -/
def start (pipeline : IngestionPipeline) (latest : List (List UInt8 × Nat)) :
    Option (List (Installed × Consumer)) :=
  match connectAll pipeline.store pipeline.sources with
  | none => none
  | some connected =>
    let recoveryOffsets := latest.filterMap splitKey
    if recoveryOffsets = [] then some connected else seekAll recoveryOffsets connected

end IngestionPipeline

/-! ### Names -/

theorem offsetKey_eq (topic partition : List UInt8) :
    offsetKey topic partition = topic ++ 0x3A :: partition :=
  append_assoc topic [0x3A] partition

variable {topic partition : List UInt8} {row : List UInt8 × Nat} {noted : List SourceOffset}
    {sought : SourceOffset → Bool}

theorem splitKey_offsetKey (h : 0x3A ∉ topic) (partition : List UInt8) (offset : Nat) :
    splitKey (offsetKey topic partition, offset) = some ⟨topic, partition, offset⟩ := by
  unfold splitKey
  rw [offsetKey_eq, splitOnce_append h]
  rfl

theorem of_splitOnce {sep : UInt8} {bytes front back : List UInt8}
    (h : splitOnce sep bytes = some (front, back)) :
    sep ∉ front ∧ bytes = front ++ sep :: back := by
  induction bytes generalizing front with
  | nil => cases h
  | cons b bytes ih =>
    unfold splitOnce at h
    split at h
    · next heq =>
      cases h
      exact ⟨not_mem_nil, by rw [heq, nil_append]⟩
    · next hne =>
      obtain ⟨⟨front', back'⟩, hsplit, heq⟩ := map_eq_some_iff.mp h
      cases heq
      obtain ⟨hfront, rfl⟩ := ih hsplit
      exact ⟨fun hmem => (mem_cons.mp hmem).elim (fun heq => hne heq.symm) hfront, rfl⟩

theorem of_splitKey {o : SourceOffset} (h : splitKey row = some o) :
    0x3A ∉ o.topic ∧ row = (offsetKey o.topic o.partition, o.offset) := by
  obtain ⟨⟨topic, partition⟩, hsplit, rfl⟩ := map_eq_some_iff.mp h
  obtain ⟨htopic, hrow⟩ := of_splitOnce hsplit
  exact ⟨htopic, Prod.ext (hrow.trans (offsetKey_eq topic partition).symm) rfl⟩

theorem offsetKey_inj {topic' partition' : List UInt8} (h : 0x3A ∉ partition)
    (h' : 0x3A ∉ partition') (heq : offsetKey topic partition = offsetKey topic' partition') :
    topic = topic' ∧ partition = partition' := by
  have hsplit : ∀ topic partition : List UInt8, 0x3A ∉ partition →
      splitOnce 0x3A (offsetKey topic partition).reverse = some (partition.reverse, topic.reverse) := by
    intro topic partition hpartition
    rw [offsetKey_eq, reverse_append, reverse_cons, append_assoc]
    exact splitOnce_append (mt mem_reverse.mp hpartition) topic.reverse
  have hparts := hsplit topic partition h
  rw [heq, hsplit topic' partition' h'] at hparts
  obtain ⟨hpartition, htopic⟩ := Prod.ext_iff.mp (some.inj hparts)
  exact ⟨(reverse_injective htopic).symm, (reverse_injective hpartition).symm⟩

/-! ### The tracker -/

def track (noted : List SourceOffset) : Offsets :=
  empty.putAll (noted.map fun o => (offsetKey o.topic o.partition, o.offset))

def lastOffset (noted : List SourceOffset) (topic partition : List UInt8) : Option Nat :=
  lastWrite (fun o => if o.topic = topic ∧ o.partition = partition then some (some o.offset) else none) none noted

theorem find?_track
    (h : ∀ o ∈ noted, offsetKey o.topic o.partition = offsetKey topic partition → o.topic = topic ∧ o.partition = partition) :
    (track noted).find? (offsetKey topic partition) = lastOffset noted topic partition := by
  rw [track, find?_putAll, lastWrite_map]
  refine lastWrite_congr fun o ho => ?_
  by_cases heq : o.topic = topic ∧ o.partition = partition
  · rw [if_pos heq, comp_apply, if_pos (by rw [heq.1, heq.2])]
  · rw [if_neg heq, comp_apply, if_neg (mt (h o ho) heq)]

theorem exists_of_mem_track (h : row ∈ (track noted).rows) :
    ∃ o ∈ noted, row = (offsetKey o.topic o.partition, o.offset) := by
  obtain hrow | hrow := mem_of_mem_putAll h
  · obtain ⟨o, ho, heq⟩ := mem_map.mp hrow
    exact ⟨o, ho, heq.symm⟩
  · cases hrow

/-! ### What seeding and starting do -/

theorem Consumer.seekKafka_apply {offsets : List SourceOffset} {position position' : Int → Int}
    (h : seekKafka topic sought offsets position = some position') (x : Int) :
    position' x = lastWrite (fun o =>
      if o.topic = topic ∧ kafkaPartition o.partition = x then some (asI64 o.offset + 1) else none) (position x) offsets := by
  induction offsets generalizing position with
  | nil =>
    cases h
    rfl
  | cons o offsets ih =>
    rw [seekKafka] at h
    rw [lastWrite_cons]
    split_ifs at h with htopic hsought
    · rw [if_neg fun heq => htopic heq.1]
      exact ih h
    · rw [ih h]
      congr 1
      by_cases hx : kafkaPartition o.partition = x
      · rw [if_pos ⟨not_not.mp htopic, hx⟩, ← hx, update_self, getD_some]
      · rw [if_neg fun heq => hx heq.2, update_of_ne (.symm hx), getD_none]

theorem Consumer.exists_seek (h : ∀ o, sought o = true) (offsets : List SourceOffset)
    (consumer : Consumer) : ∃ consumer', consumer.seek sought offsets = some consumer' := by
  cases consumer with
  | kafka topic position =>
    suffices hkafka : ∃ position', seekKafka topic sought offsets position = some position' by
      obtain ⟨position', hposition⟩ := hkafka
      exact ⟨kafka topic position', by rw [seek, hposition, map_some]⟩
    induction offsets generalizing position with
    | nil => exact ⟨position, rfl⟩
    | cons o offsets ih =>
      rw [seekKafka, if_pos (h o)]
      split
      · exact ih position
      · exact ih _
  | file | kinesis | counted => exact ⟨_, rfl⟩

theorem Consumer.seek_nil (sought : SourceOffset → Bool) (consumer : Consumer) :
    consumer.seek sought [] = some consumer := by
  cases consumer <;> rfl

namespace IngestionPipeline

theorem connectAll_bind_seekAll (store : OffsetStore) (offsets : List SourceOffset)
    (sources : List Installed) :
    (connectAll store sources).bind (seekAll offsets) =
      sources.mapM fun i => ((i.connect store).bind (·.seek i.sought offsets)).map (i, ·) := by
  induction sources with
  | nil => rfl
  | cons i sources ih =>
    rw [mapM_cons, ← ih, connectAll]
    cases i.connect store with
    | none => rfl
    | some consumer =>
      cases connectAll store sources with
      | none => cases hseek : consumer.seek i.sought offsets <;> simp [hseek]
      | some connected =>
        show seekAll offsets ((i, consumer) :: connected) = _
        rw [seekAll]
        cases hseek : consumer.seek i.sought offsets <;> cases hall : seekAll offsets connected <;> simp [hseek, hall]

theorem seekAll_nil (connected : List (Installed × Consumer)) :
    seekAll [] connected = some connected := by
  induction connected with
  | nil => rfl
  | cons first connected ih => simp only [seekAll, Consumer.seek_nil, ih]

theorem start_eq_mapM (pipeline : IngestionPipeline) (latest : List (List UInt8 × Nat)) :
    pipeline.start latest = pipeline.sources.mapM fun i =>
      ((i.connect pipeline.store).bind (·.seek i.sought (latest.filterMap splitKey))).map (i, ·) := by
  rw [← connectAll_bind_seekAll, start]
  cases connectAll pipeline.store pipeline.sources with
  | none => rfl
  | some connected =>
    dsimp only [bind_some]
    split
    · next hnone => rw [hnone, seekAll_nil]
    · rfl

theorem of_mem_start {pipeline : IngestionPipeline} {latest : List (List UInt8 × Nat)}
    {started : List (Installed × Consumer)} (h : pipeline.start latest = some started)
    {entry : Installed × Consumer} (hentry : entry ∈ started) :
    entry.1 ∈ pipeline.sources ∧ ∃ consumer, entry.1.connect pipeline.store = some consumer ∧
      consumer.seek entry.1.sought (latest.filterMap splitKey) = some entry.2 := by
  rw [start_eq_mapM] at h
  obtain ⟨i, hi, hentry⟩ := (mem_iff_of_mapM_eq_some h entry).mp hentry
  obtain ⟨consumer, hconsumer, rfl⟩ := map_eq_some_iff.mp hentry
  exact ⟨hi, bind_eq_some_iff.mp hconsumer⟩

theorem exists_start {pipeline : IngestionPipeline}
    (hconnected : ∀ i ∈ pipeline.sources, i.connected = true)
    (hsought : ∀ i ∈ pipeline.sources, ∀ o, i.sought o = true) (latest : List (List UInt8 × Nat)) :
    ∃ started, pipeline.start latest = some started ∧ ∀ i ∈ pipeline.sources, ∃ consumer, (i, consumer) ∈ started := by
  have hentry : ∀ i ∈ pipeline.sources, ∃ consumer,
      ((i.connect pipeline.store).bind (·.seek i.sought (latest.filterMap splitKey))).map (i, ·) = some (i, consumer) := by
    intro i hi
    obtain ⟨connected, hconnect⟩ : ∃ connected, i.connect pipeline.store = some connected := ⟨_, if_pos (hconnected i hi)⟩
    obtain ⟨consumer, hconsumer⟩ := connected.exists_seek (hsought i hi) (latest.filterMap splitKey)
    exact ⟨consumer, by rw [hconnect, bind_some, hconsumer, map_some]⟩
  rw [start_eq_mapM]
  obtain ⟨started, hstarted, hmem⟩ := exists_mapM_eq_some fun i hi => (hentry i hi).imp' (Prod.mk i) fun _ h => h
  exact ⟨started, hstarted, fun i hi => (hentry i hi).imp fun consumer h => (hmem _).mpr ⟨i, hi, h⟩⟩

end IngestionPipeline

/-! ### The offset store after seeding -/

section
variable {saved : SourceOffset → Bool}

theorem seedStore_eq (hsaved : ∀ o, saved o = true) (store : OffsetStore)
    (rows : List (List UInt8 × Nat)) :
    seedStore saved store rows =
      (rows.filterMap splitKey).foldl (fun store o => store.save o.topic o.partition o.offset) store := by
  rw [foldl_filterMap, seedStore]
  congr 1
  funext store row
  cases splitKey row with
  | none => rfl
  | some o => exact if_pos (hsaved o)

variable {offsets : List SourceOffset}

theorem foldl_save_inMemory (f : List UInt8 × List UInt8 → Option Nat) :
    offsets.foldl (fun store o => store.save o.topic o.partition o.offset) (.inMemory f) =
      OffsetStore.inMemory (offsets.foldl (fun f o => Function.update f (o.topic, o.partition) (some o.offset)) f) :=
  foldl_hom OffsetStore.inMemory fun _ _ => rfl

theorem foldl_save_rocksDb (f : List UInt8 → Option (List UInt8)) :
    offsets.foldl (fun store o => store.save o.topic o.partition o.offset) (.rocksDb f) =
      OffsetStore.rocksDb (offsets.foldl (fun f o => Function.update f (offsetKey o.topic o.partition) (some (toBe 8 o.offset))) f) :=
  foldl_hom OffsetStore.rocksDb fun _ _ => rfl

variable {rows : List (List UInt8 × Nat)} {topic partition : List UInt8}

theorem mem_filterMap_splitKey {o : SourceOffset} :
    o ∈ rows.filterMap splitKey ↔ 0x3A ∉ o.topic ∧ (offsetKey o.topic o.partition, o.offset) ∈ rows := by
  constructor
  · intro ho
    obtain ⟨row, hrow, hsplit⟩ := mem_filterMap.mp ho
    obtain ⟨htopic, rfl⟩ := of_splitKey hsplit
    exact ⟨htopic, hrow⟩
  · rintro ⟨htopic, hrow⟩
    exact mem_filterMap.mpr ⟨_, hrow, splitKey_offsetKey htopic o.partition o.offset⟩

theorem eq_or_isPrefix_of_offsetKey_eq {topic' partition' : List UInt8} (h : 0x3A ∉ topic)
    (heq : offsetKey topic partition = offsetKey topic' partition') :
    topic' = topic ∧ partition' = partition ∨ topic ++ [0x3A] <+: topic' := by
  have hsplit : splitOnce 0x3A (topic' ++ 0x3A :: partition') = some (topic, partition) := by
    rw [← offsetKey_eq, ← heq, offsetKey_eq, splitOnce_append h]
  by_cases hcolon : 0x3A ∈ topic'
  · obtain ⟨front, back, rfl, hfront⟩ := eq_append_cons_of_mem hcolon
    rw [append_assoc, cons_append, splitOnce_append hfront] at hsplit
    cases hsplit
    exact .inr ⟨back, by rw [append_assoc, singleton_append]⟩
  · rw [splitOnce_append hcolon] at hsplit
    cases hsplit
    exact .inl ⟨rfl, rfl⟩

theorem load_seedStore (hsaved : ∀ o, saved o = true)
    (hrows : ∀ row ∈ rows, ∀ row' ∈ rows, row.1 = row'.1 → row = row') {store : OffsetStore}
    (hstore : store.kind = .rocksDb ∨ 0x3A ∉ topic) {offset : Nat} (hoffset : offset < 2 ^ 64)
    (hmem : (offsetKey topic partition, offset) ∈ rows) :
    (seedStore saved store rows).load topic partition = .ok (some offset) := by
  have hsame : ∀ o ∈ rows.filterMap splitKey,
      offsetKey o.topic o.partition = offsetKey topic partition → o.offset = offset := by
    intro o ho hkey
    exact congrArg snd (hrows _ (mem_filterMap_splitKey.mp ho).2 _ hmem hkey)
  rw [seedStore_eq hsaved]
  cases store with
  | inMemory f =>
    have htopic : 0x3A ∉ topic := hstore.resolve_left fun h => nomatch h
    rw [foldl_save_inMemory]
    show Except.ok _ = _
    rw [foldl_update_apply]
    congr 1
    have hhere : (⟨topic, partition, offset⟩ : SourceOffset) ∈ rows.filterMap splitKey :=
      mem_filterMap_splitKey.mpr ⟨htopic, hmem⟩
    refine lastWrite_eq_of_mem hhere (if_pos rfl) fun o ho w hw => ?_
    obtain ⟨heq, hw⟩ := ite_none_right_eq_some.mp hw
    have hkey := congrArg (fun x => offsetKey x.1 x.2) heq
    rw [← some.inj hw, hsame o ho hkey]
  | rocksDb f =>
    -- The row is split at the first colon, and saved under the same name as before.
    obtain ⟨o, hsplit⟩ : ∃ o, splitKey (offsetKey topic partition, offset) = some o := by
      by_cases hcolon : 0x3A ∈ topic
      · obtain ⟨front, back, rfl, hfront⟩ := eq_append_cons_of_mem hcolon
        refine ⟨⟨front, back ++ 0x3A :: partition, offset⟩, ?_⟩
        unfold splitKey
        rw [offsetKey_eq, append_assoc, cons_append, splitOnce_append hfront]
        rfl
      · exact ⟨_, splitKey_offsetKey hcolon partition offset⟩
    have hkey := (congrArg fst (of_splitKey hsplit).2).symm
    have hvalue : o.offset = offset := (congrArg snd (of_splitKey hsplit).2).symm
    have hbytes : (rows.filterMap splitKey).foldl
        (fun f o => update f (offsetKey o.topic o.partition) (some (toBe 8 o.offset))) f (offsetKey topic partition) =
          some (toBe 8 offset) := by
      rw [foldl_update_apply]
      refine lastWrite_eq_of_mem (mem_filterMap.mpr ⟨_, hmem, hsplit⟩) (by rw [if_pos hkey, hvalue]) fun o' ho' w hw => ?_
      obtain ⟨heq, hw⟩ := ite_none_right_eq_some.mp hw
      rw [← some.inj hw, hsame o' ho' heq]
    have hoffset' : offset < 256 ^ 8 := hoffset
    rw [foldl_save_rocksDb, OffsetStore.load, hbytes]
    dsimp only
    rw [if_pos (length_toBe 8 offset), ofBe_toBe, mod_eq_of_lt hoffset']

end

/-! ### Pipelines that resume at any checkpoint -/

/-- The handler may have noted the offset for a batch of one of the sources. -/
def Noted (sources : List Source) (o : SourceOffset) : Prop :=
  (∃ source ∈ sources, o.topic = source.topic ∧ o.partition ∈ source.partitions) ∧ o.offset + 1 < 2 ^ 63

/-- Whatever offsets were noted before the checkpoint and whatever the sources have committed
themselves: the manifest has the last offset of every topic and partition, and a pipeline that has
been seeded with it and has started delivers next, from every partition of every source, the record
behind the last offset. -/
def Recovers (kind : StoreKind) (sources : List Source) : Prop :=
  ∀ noted : List SourceOffset, (∀ o ∈ noted, Noted sources o) →
    (∀ o ∈ noted, (track noted).find? (offsetKey o.topic o.partition) = lastOffset noted o.topic o.partition) ∧
      ∀ pipeline : IngestionPipeline, pipeline.sources.map Installed.source = sources → pipeline.store.kind = kind →
        pipeline.latestOffsets = empty → (∀ i ∈ pipeline.sources, i.loaded = true) →
        ∀ plan latest started, plan.Perm (track noted).rows →
          latest.Perm (pipeline.seedRecovery (fun _ => true) plan).latestOffsets.rows →
          (pipeline.seedRecovery (fun _ => true) plan).start latest = some started →
          ∀ entry ∈ started, ∀ partition ∈ entry.1.source.partitions, ∀ offset,
            lastOffset noted entry.1.source.topic partition = some offset → entry.2.next partition = offset + 1

/-- The source takes its position from the manifest. -/
def Source.Repositions (kind : StoreKind) : Source → Prop
  | kafka topic => 0x3A ∉ topic
  | file topic .shared => kind = .rocksDb ∨ 0x3A ∉ topic
  | _ => False

/-- All sources take their positions from the manifest, and no topic of a file begins with a topic
of Kafka and a colon. -/
structure Recoverable (kind : StoreKind) (sources : List Source) : Prop where
  repositions : ∀ source ∈ sources, source.Repositions kind
  apart : ∀ topic topic', .kafka topic ∈ sources → .file topic' .shared ∈ sources →
    ¬ topic ++ [0x3A] <+: topic'

theorem parseI32_numeral {n : Nat} (h : n < 2 ^ 31) : parseI32 (numeral 10 n) = some (n : Int) := by
  have hhead : (numeral 10 n).head? ≠ some 0x2D := by
    intro hhead
    exact not_mem_fixedNumeral (by decide) (by decide) (.inl (by decide)) _ _ (mem_of_head? hhead)
  rw [parseI32, if_neg hhead, parseNumeral_numeral (by decide) (by decide) h]
  rfl

theorem kafkaPartition_numeral {n : Nat} (h : n < 2 ^ 31) : kafkaPartition (numeral 10 n) = n := by
  simp [kafkaPartition, parseI32_numeral h]

theorem asI64_of_lt {n : Nat} (h : n < 2 ^ 63) : asI64 n = n := by
  have hmod : n % 2 ^ 64 = n := mod_eq_of_lt (h.trans (by decide))
  rw [asI64, hmod, if_pos h]

theorem Source.Repositions.exists_numeral {kind : StoreKind} {source : Source}
    (h : source.Repositions kind) {partition : List UInt8}
    (hpartition : partition ∈ source.partitions) : ∃ n < 2 ^ 31, partition = numeral 10 n := by
  cases source with
  | kafka topic => exact hpartition
  | file topic offsetStore => exact ⟨0, by decide, hpartition⟩
  | _ => cases h

theorem colon_notMem_numeral (n : Nat) : (0x3A : UInt8) ∉ numeral 10 n :=
  not_mem_fixedNumeral (by decide) (by decide) (.inr (by decide)) _ _

section
variable {kind : StoreKind} {sources : List Source} {noted : List SourceOffset}
variable {source : Source} {partition topic : List UInt8} {o : SourceOffset} {offset : Nat}
    {rows latest : List (List UInt8 × Nat)}
section
variable (h : Recoverable kind sources) (hnoted : ∀ o ∈ noted, Noted sources o)
include h hnoted
section
variable (hsource : source ∈ sources) (hpartition : partition ∈ source.partitions)
include hsource hpartition

theorem Recoverable.key_inj (ho : o ∈ noted)
    (heq : offsetKey o.topic o.partition = offsetKey source.topic partition) :
    o.topic = source.topic ∧ o.partition = partition := by
  obtain ⟨⟨source', hsource', -, hpartition'⟩, -⟩ := hnoted o ho
  obtain ⟨n, -, rfl⟩ := (h.repositions source hsource).exists_numeral hpartition
  obtain ⟨m, -, hm⟩ := (h.repositions source' hsource').exists_numeral hpartition'
  exact offsetKey_inj (hm ▸ colon_notMem_numeral m) (colon_notMem_numeral n) heq

theorem Recoverable.find?_track :
    (track noted).find? (offsetKey source.topic partition) = lastOffset noted source.topic partition :=
  Stream.find?_track fun _ ho heq => h.key_inj hnoted hsource hpartition ho heq

end

theorem Recoverable.seek_same (hsource : .kafka topic ∈ sources) {n : Nat}
    (hoffset : (offsetKey topic (numeral 10 n), offset) ∈ (track noted).rows)
    (htopic : o.topic = topic) (hpartition : kafkaPartition o.partition = n)
    (ho : (offsetKey o.topic o.partition, o.offset) ∈ (track noted).rows) :
    o.offset = offset := by
  have hcolon : 0x3A ∉ topic := h.repositions _ hsource
  suffices hnumber : o.partition = numeral 10 n by
    rw [htopic, hnumber] at ho
    exact value_eq_of_mem ho hoffset
  obtain ⟨o', ho', heq⟩ := exists_of_mem_track ho
  have hkey : offsetKey topic o.partition = offsetKey o'.topic o'.partition :=
    htopic ▸ congrArg fst heq
  obtain ⟨⟨source', hsource', htopic', hpartition'⟩, -⟩ := hnoted o' ho'
  obtain ⟨m, hm, hnumber⟩ := (h.repositions source' hsource').exists_numeral hpartition'
  obtain ⟨-, hsame⟩ | hbegins := eq_or_isPrefix_of_offsetKey_eq hcolon hkey
  · rw [← hsame, hnumber, kafkaPartition_numeral hm] at hpartition
    rw [← hsame, hnumber, Int.ofNat_inj.mp hpartition]
  · -- The topic of the other source would have to be longer, and have a colon inside.
    exfalso
    have hrepositions := h.repositions source' hsource'
    rw [htopic'] at hbegins
    cases source' with
    | kafka topic' => exact hrepositions (hbegins.subset (mem_append_right _ mem_cons_self))
    | file topic' offsetStore =>
      cases offsetStore with
      | shared => exact h.apart topic topic' hsource hsource' hbegins
      | _ => cases hrepositions
    | _ => cases hrepositions

end

theorem row_eq_of_perm {t : Offsets} (h : rows.Perm t.rows) :
    ∀ row ∈ rows, ∀ row' ∈ rows, row.1 = row'.1 → row = row' := by
  intro row hrow row' hrow' hkey
  have hmem : (row.1, row'.2) ∈ t.rows := hkey ▸ h.mem_iff.mp hrow'
  exact Prod.ext hkey (Table.value_eq_of_mem (h.mem_iff.mp hrow) hmem)

theorem Noted.offset_lt_of_last (hnoted : ∀ o ∈ noted, Noted sources o)
    (h : (offsetKey topic partition, offset) ∈ (track noted).rows) : offset + 1 < 2 ^ 63 := by
  obtain ⟨o, ho, heq⟩ := exists_of_mem_track h
  obtain ⟨-, rfl⟩ := Prod.ext_iff.mp heq
  exact (hnoted o ho).2

theorem Recoverable.next_eq (h : Recoverable kind sources) (hnoted : ∀ o ∈ noted, Noted sources o)
    {i : Installed} (hsource : i.source ∈ sources) (hloaded : i.loaded = true) {store : OffsetStore}
    (hkind : store.kind = kind) {plan : List (List UInt8 × Nat)}
    (hplan : plan.Perm (track noted).rows) (hlatest : latest.Perm (track noted).rows)
    {connected consumer : Consumer}
    (hconnect : i.connect (seedStore (fun _ => true) store plan) = some connected)
    (hseek : connected.seek i.sought (latest.filterMap splitKey) = some consumer)
    (hpartition : partition ∈ i.source.partitions)
    (hlast : lastOffset noted i.source.topic partition = some offset) :
    consumer.next partition = offset + 1 := by
  have hrow := find?_eq_some_iff.mp ((h.find?_track hnoted hsource hpartition).trans hlast)
  have hlt : offset + 1 < 2 ^ 63 := Noted.offset_lt_of_last hnoted hrow
  have hrepositions := h.repositions i.source hsource
  obtain ⟨-, hconnected⟩ := ite_none_right_eq_some.mp hconnect
  cases hi : i.source with
  | kafka topic =>
    rw [hi] at hsource hpartition hrow hconnected hrepositions
    obtain ⟨n, hn, rfl⟩ := hpartition
    cases hconnected
    obtain ⟨position, hposition, rfl⟩ := map_eq_some_iff.mp hseek
    have hhere : (⟨topic, numeral 10 n, offset⟩ : SourceOffset) ∈ latest.filterMap splitKey :=
      mem_filterMap_splitKey.mpr ⟨hrepositions, hlatest.mem_iff.mpr hrow⟩
    rw [Consumer.next, kafkaPartition_numeral hn, Consumer.seekKafka_apply hposition]
    refine lastWrite_eq_of_mem hhere ?_ fun o ho w hw => ?_
    · rw [if_pos ⟨rfl, kafkaPartition_numeral hn⟩, asI64_of_lt (lt_of_succ_lt hlt)]
    · obtain ⟨⟨htopic, hnumber⟩, hw⟩ := ite_none_right_eq_some.mp hw
      have hsame := h.seek_same hnoted hsource hrow htopic hnumber (hlatest.mem_iff.mp (mem_filterMap_splitKey.mp ho).2)
      rw [← some.inj hw, hsame, asI64_of_lt (lt_of_succ_lt hlt)]
  | file topic offsetStore =>
    rw [hi] at hpartition hrow hconnected hrepositions
    obtain rfl := hpartition
    cases offsetStore with
    | shared =>
      cases hconnected
      cases hseek
      have hload : (seedStore (fun _ => true) store plan).load topic onePartition = .ok (some offset) :=
        load_seedStore (fun _ => rfl) (row_eq_of_perm hplan) (hkind ▸ hrepositions) (lt_of_succ_lt (hlt.trans (by decide)))
          (hplan.mem_iff.mpr hrow)
      have hmod : (offset + 1) % 2 ^ 64 = offset + 1 := mod_eq_of_lt (hlt.trans (by decide))
      simp only [Consumer.next, hloaded, firstLine, hload, hmod, Int.natCast_succ]
    | _ => cases hrepositions
  | _ =>
    rw [hi] at hrepositions
    cases hrepositions

theorem recovers_of_recoverable (h : Recoverable kind sources) : Recovers kind sources := by
  intro noted hnoted
  constructor
  · intro o ho
    obtain ⟨⟨source, hsource, htopic, hpartition⟩, -⟩ := hnoted o ho
    rw [htopic]
    exact h.find?_track hnoted hsource hpartition
  · intro pipeline hsources hkind hempty hloaded plan latest started hplan hlatest hstart entry hentry partition hpartition offset hlast
    obtain ⟨hmem, connected, hconnect, hseek⟩ := IngestionPipeline.of_mem_start hstart hentry
    have hsource : entry.1.source ∈ sources := hsources ▸ mem_map_of_mem hmem
    have hseeded : (pipeline.seedRecovery (fun _ => true) plan).latestOffsets = track noted := by
      show pipeline.latestOffsets.putAll plan = _
      rw [hempty]
      exact putAll_empty fun row => hplan.mem_iff
    rw [hseeded] at hlatest
    exact h.next_eq hnoted hsource (hloaded entry.1 hmem) hkind hplan hlatest hconnect hseek hpartition hlast

/-! ### Pipelines that do not -/

def emptyStore : StoreKind → OffsetStore
  | .inMemory => .inMemory fun _ => none
  | .rocksDb => .rocksDb fun _ => none

def ahead (source : Source) : Installed :=
  ⟨source, true, fun _ => 5, .inMemory fun _ => some 5, true, fun _ => 5, fun _ => true⟩

theorem Recovers.exists_next (h : Recovers kind sources) (hnoted : ∀ o ∈ noted, Noted sources o)
    (hlatest : latest.Perm (track noted).rows) (hsource : source ∈ sources)
    (hpartition : partition ∈ source.partitions)
    (hlast : lastOffset noted source.topic partition = some offset) :
    ∃ connected consumer, (ahead source).connect (seedStore (fun _ => true) (emptyStore kind) (track noted).rows) = some connected ∧
      connected.seek (fun _ => true) (latest.filterMap splitKey) = some consumer ∧
        consumer.next partition = offset + 1 := by
  let pipeline : IngestionPipeline := ⟨sources.map ahead, emptyStore kind, .empty⟩
  have hall : ∀ i ∈ pipeline.sources, ∃ source ∈ sources, i = ahead source := by
    intro i hi
    obtain ⟨source, hsource, rfl⟩ := mem_map.mp hi
    exact ⟨source, hsource, rfl⟩
  have hseeded : (pipeline.seedRecovery (fun _ => true) (track noted).rows).latestOffsets = track noted :=
    putAll_empty fun row => .rfl
  have hmem : ahead source ∈ pipeline.sources := mem_map_of_mem hsource
  obtain ⟨started, hstart, hstarted⟩ := @IngestionPipeline.exists_start
    (pipeline.seedRecovery (fun _ => true) (track noted).rows)
    (fun i hi => by obtain ⟨source, -, rfl⟩ := hall i hi; rfl) (fun i hi o => by obtain ⟨source, -, rfl⟩ := hall i hi; rfl) latest
  obtain ⟨consumer, hentry⟩ := hstarted _ hmem
  obtain ⟨-, connected, hconnect, hseek⟩ := IngestionPipeline.of_mem_start hstart hentry
  have hlatest' : latest.Perm (pipeline.seedRecovery (fun _ => true) (track noted).rows).latestOffsets.rows := by
    rw [hseeded]
    exact hlatest
  refine ⟨connected, consumer, hconnect, hseek, ?_⟩
  refine (h noted hnoted).2 pipeline ?_ ?_ rfl ?_ _ latest started (.refl _) hlatest' hstart _ hentry partition
    hpartition offset hlast
  · rw [List.map_map]
    exact map_id sources
  · cases kind <;> rfl
  · intro i hi
    obtain ⟨source, -, rfl⟩ := hall i hi
    rfl

theorem parseI32_eq_none {text : List UInt8} (h : 0x3A ∈ text) : parseI32 text = none := by
  have hdigit : digitValue 10 0x3A = none := by decide
  have htail : ∀ b : UInt8, text.head? = some b → b ≠ 0x3A → 0x3A ∈ text.tail := by
    intro b hhead hne
    cases text with
    | nil => cases hhead
    | cons c text =>
      obtain rfl := some.inj hhead
      exact (mem_cons.mp h).resolve_left hne.symm
  unfold parseI32
  split_ifs with hminus hnil
  · rfl
  · rw [numeralValue_eq_none hdigit (htail _ hminus (by decide))]
    rfl
  · have hdigits : (0x3A : UInt8) ∈ if text.head? = some 0x2B then text.tail else text := by
      split_ifs with hplus
      · exact htail _ hplus (by decide)
      · exact h
    unfold parseNumeral
    dsimp only
    rw [numeralValue_eq_none hdigit hdigits, filter_none, ite_self, map_none]

theorem onePartition_mem (source : Source) : onePartition ∈ source.partitions := by
  cases source with
  | kafka topic => exact ⟨0, by decide, rfl⟩
  | kinesis streamName => exact Set.mem_univ _
  | _ => exact Set.mem_singleton _

theorem topic_ne_of_splitKey (h : 0x3A ∈ topic) (ho : o ∈ rows.filterMap splitKey) :
    o.topic ≠ topic := by
  rintro rfl
  exact (mem_filterMap_splitKey.mp ho).1 h

theorem Recovers.repositions (h : Recovers kind sources) (hsource : source ∈ sources) :
    source.Repositions kind := by
  have hnoted : ∀ o ∈ [(⟨source.topic, onePartition, 0⟩ : SourceOffset)], Noted sources o := by
    intro o ho
    obtain rfl := mem_singleton.mp ho
    exact ⟨⟨source, hsource, rfl, onePartition_mem source⟩, show 0 + 1 < 2 ^ 63 by decide⟩
  have hlast : lastOffset [⟨source.topic, onePartition, 0⟩] source.topic onePartition = some 0 := by
    rw [lastOffset, lastWrite_cons, if_pos ⟨rfl, rfl⟩]
    rfl
  obtain ⟨connected, consumer, hconnect, hseek, hnext⟩ :=
    h.exists_next hnoted (.refl _) hsource (onePartition_mem source) hlast
  cases source with
  | kafka topic =>
    intro hcolon
    cases hconnect
    obtain ⟨position, hposition, rfl⟩ := map_eq_some_iff.mp hseek
    rw [Consumer.next, Consumer.seekKafka_apply hposition, lastWrite_of_forall_getD] at hnext
    · cases hnext
    · intro o ho
      rw [if_neg fun heq => topic_ne_of_splitKey hcolon ho heq.1, getD_none]
  | file topic offsetStore =>
    cases offsetStore with
    | none | own =>
      cases hconnect
      cases hseek
      cases hnext
    | shared =>
      cases kind with
      | rocksDb => exact .inl rfl
      | inMemory =>
        right
        intro hcolon
        cases hconnect
        cases hseek
        have hload : (seedStore (fun _ => true) (emptyStore .inMemory) (track [⟨topic, onePartition, 0⟩]).rows).load topic onePartition =
            .ok none := by
          rw [seedStore_eq fun _ => rfl, emptyStore, foldl_save_inMemory]
          show Except.ok _ = _
          rw [foldl_update_apply, lastWrite_of_forall_getD]
          intro o ho
          rw [if_neg fun heq => topic_ne_of_splitKey hcolon ho (congrArg fst heq), getD_none]
        simp [Consumer.next, ahead, firstLine, Source.topic, hload] at hnext
  | _ =>
    cases hconnect
    cases hseek
    cases hnext

theorem Recovers.apart (h : Recovers kind sources) {topic' : List UInt8}
    (hkafka : .kafka topic ∈ sources) (hfile : .file topic' .shared ∈ sources) :
    ¬ topic ++ [0x3A] <+: topic' := by
  rintro ⟨back, hback⟩
  have hcolon : 0x3A ∉ topic := h.repositions hkafka
  have hne : topic ≠ topic' := by
    intro heq
    rw [← hback, append_assoc] at heq
    exact absurd (self_eq_append_right.mp heq) (cons_ne_nil _ _)
  have hkey : offsetKey topic' onePartition = offsetKey topic (offsetKey back onePartition) := by
    simp [offsetKey_eq, ← hback]
  have hnoted : ∀ o ∈ [(⟨topic, onePartition, 0⟩ : SourceOffset), ⟨topic', onePartition, 4⟩],
      Noted sources o := by
    intro o ho
    obtain rfl | ho := mem_cons.mp ho
    · exact ⟨⟨_, hkafka, rfl, onePartition_mem _⟩, show 0 + 1 < 2 ^ 63 by decide⟩
    · obtain rfl := mem_singleton.mp ho
      exact ⟨⟨_, hfile, rfl, onePartition_mem _⟩, show 4 + 1 < 2 ^ 63 by decide⟩
  have hlast : lastOffset [⟨topic, onePartition, 0⟩, ⟨topic', onePartition, 4⟩] topic onePartition = some 0 := by
    rw [lastOffset, lastWrite_cons, if_pos ⟨rfl, rfl⟩, lastWrite_cons, if_neg fun heq => hne heq.1.symm]
    rfl
  have hdistinct : offsetKey topic onePartition ≠ offsetKey topic' onePartition :=
    fun heq => hne (offsetKey_inj (by decide) (by decide) heq).1
  -- The offset of the file comes last.
  have hlatest : [(offsetKey topic onePartition, 0), (offsetKey topic' onePartition, 4)].Perm
      (track [⟨topic, onePartition, 0⟩, ⟨topic', onePartition, 4⟩]).rows := by
    refine perm_rows_putAll ?_
    simp only [map_cons, map_nil, nodup_cons, mem_singleton, not_mem_nil, not_false_iff, nodup_nil,
      and_true]
    exact hdistinct
  obtain ⟨connected, consumer, hconnect, hseek, hnext⟩ :=
    h.exists_next hnoted hlatest hkafka (onePartition_mem _) hlast
  cases hconnect
  obtain ⟨position, hposition, rfl⟩ := map_eq_some_iff.mp hseek
  have hparse : kafkaPartition (offsetKey back onePartition) = kafkaPartition onePartition := by
    have hnone : parseI32 (offsetKey back onePartition) = none :=
      parseI32_eq_none (by rw [offsetKey_eq]; exact mem_append_right _ mem_cons_self)
    rw [kafkaPartition, hnone]
    rfl
  have hoffsets : [(offsetKey topic onePartition, 0), (offsetKey topic' onePartition, 4)].filterMap splitKey =
      [⟨topic, onePartition, 0⟩, ⟨topic, offsetKey back onePartition, 4⟩] := by
    rw [hkey]
    simp [splitKey_offsetKey hcolon]
  rw [hoffsets] at hposition
  rw [Consumer.next, Consumer.seekKafka_apply hposition, lastWrite_cons, lastWrite_cons, if_pos ⟨rfl, hparse⟩] at hnext
  cases hnext

/-- **Recovery repositions the sources.** The manifest has the last offset noted for every topic and
partition, and every source resumes behind it, for all offsets that can have been noted, all
positions that the sources have committed themselves and all orders in which hash tables are gone
through, exactly if all sources are Kafka topics without a colon or files that share the pipeline's
offset store, these without a colon too unless the store is RocksDB, and no file's topic begins with
a Kafka topic and a colon. -/
theorem recovers_iff (kind : StoreKind) (sources : List Source) :
    Recovers kind sources ↔ Recoverable kind sources :=
  ⟨fun h => ⟨fun _ => h.repositions, fun _ _ => h.apart⟩, recovers_of_recoverable⟩

end

/-- A Kafka topic and a file that shares the offset store in memory. -/
theorem recovers_kafka_and_file :
    Recovers .inMemory [.kafka (Json.ascii "orders"), .file (Json.ascii "events") .shared] := by
  refine (recovers_iff _ _).mpr ⟨fun source hsource => ?_, fun topic topic' hkafka hfile => ?_⟩
  · obtain rfl | hsource := mem_cons.mp hsource
    · show 0x3A ∉ Json.ascii "orders"
      decide
    · obtain rfl := mem_singleton.mp hsource
      exact .inr (by decide)
  · obtain hkafka | hkafka := mem_cons.mp hkafka
    · obtain hfile | hfile := mem_cons.mp hfile
      · cases hfile
      · cases hkafka
        cases mem_singleton.mp hfile
        decide
    · cases mem_singleton.mp hkafka

/-- A Kafka topic with a colon; a file without an offset store; a source that counts its messages; a
Kafka source that takes the offset of a file for one of its own; and two pairs of topic and
partition with the same name, of which one offset overwrites the other. -/
theorem not_recovers_of_colon_not_recovers_of_kind :
    ¬ Recovers .inMemory [.kafka (Json.ascii "a:b")] ∧ ¬ Recovers .inMemory [.file (Json.ascii "events") .none] ∧
      ¬ Recovers .inMemory [.mqtt [Json.ascii "sensors"]] ∧
      ¬ Recovers .rocksDb [.kafka (Json.ascii "t"), .file (Json.ascii "t:u") .shared] ∧
      (track [⟨Json.ascii "a", Json.ascii "b:c", 1⟩, ⟨Json.ascii "a:b", Json.ascii "c", 2⟩]).find?
        (offsetKey (Json.ascii "a") (Json.ascii "b:c")) = some 2 := by
  refine ⟨fun h => ?_, fun h => ?_, fun h => ?_, fun h => ?_, rfl⟩
  · have hcolon : 0x3A ∉ Json.ascii "a:b" := h.repositions mem_cons_self
    exact absurd hcolon (by decide)
  · exact h.repositions mem_cons_self
  · exact h.repositions mem_cons_self
  · exact h.apart mem_cons_self (mem_cons_of_mem _ mem_cons_self) (by decide)

end Nexora.Stream
