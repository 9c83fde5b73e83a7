import Nexora.Lib.Joined
import Nexora.ValueEq
import Mathlib.Data.String.Basic
import Mathlib.Logic.Equiv.List

/-!
# The texts of values

The key of a group is made of the `Debug` texts of values (`format!("{:?}", value)`), which
`#[derive(Debug)]` makes of those of the standard library and of `chrono`. The labels of a blob are
a `HashMap`: they are listed in the order in which the map at hand is iterated, which may be another
one for an equal map. A text can be told from what follows it, and two values with the same text are
equal unless there is a NaN in them.
-/

namespace Nexora
open Lib List

/-- `Debug` of numbers, strings and times. -/
structure StdDebug where
  int : Int → List Char
  float : F64 → List Char
  str : String → List Char
  date : NaiveDate → List Char
  dateTime : NaiveDateTime → List Char
  utc : NaiveDateTime → List Char

namespace StdDebug

/-- What may follow a value in the text of a larger one or in a key. -/
def stops : Set Char := {',', ')', ']', '\x7d', ' ', ':', '|'}

/-- What is documented of these texts: quotes inside strings are escaped, and the other texts have
no stops in them. A double has the shortest digits that are read as itself, and all NaN are
alike. -/
structure Documented (d : StdDebug) : Prop where
  int : ∀ i j, ReadsAs stops (d.int i) (d.int j) (i = j)
  float : ∀ x y, ReadsAs stops (d.float x) (d.float y) (y.eq y = true → x = y)
  str : ∀ s t, ReadsAs stops (d.str s) (d.str t) (s = t)
  date : ∀ x y, ReadsAs stops (d.date x) (d.date y) (x = y)
  dateTime : ∀ x y, ReadsAs stops (d.dateTime x) (d.dateTime y) (x = y)
  utc : ∀ x y, ReadsAs stops (d.utc x) (d.utc y) (x = y)
  int_start : ∀ i s, ¬ AtStop stops (d.int i ++ s)
  str_start : ∀ s t, ¬ AtStop stops (d.str s ++ t)

variable (d : StdDebug)

def listText (items : List (List Char)) : List Char := '[' :: listedTo (',' :: [' ']) [']'] items

def mapText (entries : List (List Char)) : List Char :=
  '\x7b' :: listedTo (',' :: [' ']) ['\x7d'] entries

def bytesText (bytes : List UInt8) : List Char := listText (bytes.map fun b => d.int b.toNat)

def labelText (label : String × String) : List Char :=
  d.str label.1 ++ ':' :: [' '] ++ d.str label.2

def durationText (x : DurationValue) : List Char :=
  "DurationValue \x7b months: ".toList ++ d.int x.months.toInt ++
    ',' :: " days: ".toList ++ d.int x.days.toInt ++
    ',' :: " seconds: ".toList ++ d.int x.seconds.toInt ++
    ',' :: " nanoseconds: ".toList ++ d.int x.nanoseconds.toInt ++ ' ' :: ['\x7d']

def optionText (z : Option F64) : List Char :=
  z.elim "None".toList fun z => "Some(".toList ++ d.float z ++ ')' :: []

def pointText (p : PointValue) : List Char :=
  "PointValue \x7b x: ".toList ++ d.float p.x ++ ',' :: " y: ".toList ++ d.float p.y ++
    ',' :: " z: ".toList ++ d.optionText p.z ++
    ',' :: " srid: ".toList ++ d.int p.srid.toInt ++ ' ' :: ['\x7d']

def blobText (b : BlobRef) : List Char :=
  "BlobRef \x7b bucket: ".toList ++ d.str b.bucket ++ ',' :: " entry: ".toList ++ d.str b.entry ++
    ',' :: " timestamp_us: ".toList ++ d.int b.timestampUs.toNat ++
    ',' :: " size: ".toList ++ d.int b.size.toNat ++
    ',' :: " content_type: ".toList ++ d.str b.contentType ++
    ',' :: " labels: ".toList ++ mapText (b.labels.map d.labelText) ++ ' ' :: ['\x7d']

end StdDebug

/-- A variant of an enumeration with one field. -/
def variant (name : String) (field : List Char) : List Char :=
  name.toList ++ ['('] ++ field ++ [')']

mutual

def PropertyValue.debug (d : StdDebug) : PropertyValue → List Char
  | .null => "Null".toList
  | .boolean b => variant "Boolean" (if b then "true".toList else "false".toList)
  | .integer i => variant "Integer" (d.int i.toInt)
  | .float x => variant "Float" (d.float x)
  | .string s => variant "String" (d.str s)
  | .bytes b => variant "Bytes" (d.bytesText b)
  | .list l => variant "List" (StdDebug.listText (listDebug d l))
  | .map m => variant "Map" (StdDebug.mapText (entriesDebug d m))
  | .node n => variant "Node" (n.debug d)
  | .relationship r => variant "Relationship" (r.debug d)
  | .path nodes relationships => variant "Path" ("PathValue \x7b nodes: ".toList ++
      StdDebug.listText (nodesDebug d nodes) ++ ',' :: " relationships: ".toList ++
      StdDebug.listText (relationshipsDebug d relationships) ++ ' ' :: ['\x7d'])
  | .date x => variant "Date" (d.date x)
  | .localDateTime x => variant "LocalDateTime" (d.dateTime x)
  | .zonedDateTime x => variant "ZonedDateTime" (d.utc x)
  | .duration x => variant "Duration" (d.durationText x)
  | .point p => variant "Point" (d.pointText p)
  | .blobRef b => variant "BlobRef" (d.blobText b)
termination_by structural v => v

def NodeValue.debug (d : StdDebug) : NodeValue → List Char
  | .mk id labels properties => "NodeValue \x7b id: ".toList ++ d.bytesText id ++
      ',' :: " labels: ".toList ++ StdDebug.listText (labels.map d.str) ++
      ',' :: " properties: ".toList ++ StdDebug.mapText (entriesDebug d properties) ++ ' ' :: ['\x7d']
termination_by structural n => n

def RelationshipValue.debug (d : StdDebug) : RelationshipValue → List Char
  | .mk id relType start stop properties => "RelationshipValue \x7b id: ".toList ++ d.bytesText id ++
      ',' :: " rel_type: ".toList ++ d.str relType ++
      ',' :: " start_node_id: ".toList ++ d.bytesText start ++
      ',' :: " end_node_id: ".toList ++ d.bytesText stop ++
      ',' :: " properties: ".toList ++ StdDebug.mapText (entriesDebug d properties) ++ ' ' :: ['\x7d']
termination_by structural r => r

def listDebug (d : StdDebug) : List PropertyValue → List (List Char)
  | [] => []
  | v :: rest => v.debug d :: listDebug d rest
termination_by structural l => l

def entriesDebug (d : StdDebug) : List (String × PropertyValue) → List (List Char)
  | [] => []
  | (k, v) :: rest => (d.str k ++ ':' :: [' '] ++ v.debug d) :: entriesDebug d rest
termination_by structural l => l

def nodesDebug (d : StdDebug) : List NodeValue → List (List Char)
  | [] => []
  | n :: rest => n.debug d :: nodesDebug d rest
termination_by structural l => l

def relationshipsDebug (d : StdDebug) : List RelationshipValue → List (List Char)
  | [] => []
  | r :: rest => r.debug d :: relationshipsDebug d rest
termination_by structural l => l

end

/-! ### Reading the texts -/

namespace StdDebug

theorem comma_mem : ',' ∈ stops := by simp [stops]

theorem space_mem : ' ' ∈ stops := by simp [stops]

theorem colon_mem : ':' ∈ stops := by simp [stops]

theorem paren_mem : ')' ∈ stops := by simp [stops]

section
variable {A : Type} {f : A → List Char} {R : A → A → Prop} {l m : List A}
  (hreads : ∀ a ∈ l, ∀ b ∈ m, ReadsAs stops (f a) (f b) (R a b))
  (hstart : ∀ a s, ¬ AtStop stops (f a ++ s))

include hreads hstart

theorem listText_reads :
    ReadsAs stops (listText (l.map f)) (listText (m.map f)) (Forall₂ R l m) :=
  (readsAs_listedTo comma_mem (by simp [stops]) (by decide) hreads hstart).after ['[']

theorem mapText_reads :
    ReadsAs stops (mapText (l.map f)) (mapText (m.map f)) (Forall₂ R l m) :=
  (readsAs_listedTo comma_mem (by simp [stops]) (by decide) hreads hstart).after ['\x7b']

end

variable {d : StdDebug}

theorem not_atStop_append {a : List Char} (h : ∀ s, ¬ AtStop stops (a ++ s)) (b s : List Char) :
    ¬ AtStop stops (a ++ b ++ s) := by
  rw [append_assoc]
  exact h (b ++ s)

section
variable (h : d.Documented)

include h

theorem bytesText_reads (a b : List UInt8) :
    ReadsAs stops (d.bytesText a) (d.bytesText b) (a = b) := by
  have hbyte : ∀ x y : UInt8, ReadsAs stops (d.int x.toNat) (d.int y.toNat) (x = y) :=
    fun x y => (h.int _ _).mono fun heq => UInt8.toNat_inj.mp (Int.ofNat_inj.mp heq)
  refine (listText_reads (fun x _ y _ => hbyte x y) fun x => h.int_start x.toNat).mono ?_
  rw [forall₂_eq_eq_eq]
  exact id

private theorem labelsText_reads (a b : List String) :
    ReadsAs stops (listText (a.map d.str)) (listText (b.map d.str)) (a = b) := by
  refine (listText_reads (fun s _ t _ => h.str s t) h.str_start).mono ?_
  rw [forall₂_eq_eq_eq]
  exact id

private theorem blobLabels_reads (a b : List (String × String)) :
    ReadsAs stops (mapText (a.map d.labelText)) (mapText (b.map d.labelText)) (a = b) := by
  have hlabel : ∀ x y, ReadsAs stops (d.labelText x) (d.labelText y) (x = y) := fun x y =>
    ((h.str _ _).between colon_mem _ (h.str _ _)).mono fun heq => Prod.ext heq.1 heq.2
  refine (mapText_reads (fun x _ y _ => hlabel x y) fun x s => ?_).mono ?_
  · exact not_atStop_append (not_atStop_append (h.str_start x.1) _) _ s
  · rw [forall₂_eq_eq_eq]
    exact id

private theorem durationText_reads (x y : DurationValue) :
    ReadsAs stops (d.durationText x) (d.durationText y) (x = y) := by
  refine ((((((h.int _ _).after _).between comma_mem _ (h.int _ _)).between comma_mem _
    (h.int _ _)).between comma_mem _ (h.int _ _)).before space_mem _).mono ?_
  rintro ⟨⟨⟨hmonths, hdays⟩, hseconds⟩, hnanoseconds⟩
  cases x
  cases y
  simp_all [Int64.toInt_inj]

private theorem optionText_reads (x y : Option F64) :
    ReadsAs stops (d.optionText x) (d.optionText y)
      ((∀ z ∈ y, z.eq z = true) → x = y) := by
  cases x with
  | none =>
    cases y with
    | none => exact (readsAs_refl _).mono fun _ _ => rfl
    | some y => exact readsAs_of_ne ['N'] ['S'] rfl (by decide) _ _ _
  | some x =>
    cases y with
    | none => exact readsAs_of_ne ['S'] ['N'] rfl (by decide) _ _ _
    | some y =>
      exact (((h.float x y).after _).before paren_mem _).mono fun heq hy => by rw [heq (hy y rfl)]

private theorem pointText_reads (p q : PointValue) :
    ReadsAs stops (d.pointText p) (d.pointText q) (q.eq q = true → p = q) := by
  refine ((((((h.float _ _).after _).between comma_mem _ (h.float _ _)).between comma_mem _
    (optionText_reads h _ _)).between comma_mem _ (h.int _ _)).before space_mem _).mono ?_
  rintro ⟨⟨⟨hx, hy⟩, hz⟩, hsrid⟩ hself
  obtain ⟨x, y, z, srid⟩ := q
  simp only [PointValue.eq, Bool.and_eq_true] at hself
  have hself' : ∀ z' ∈ z, z'.eq z' = true := fun z' hz' => by
    cases hz'
    exact hself.2
  cases p
  simp_all [Int32.toInt_inj]

private theorem blobText_reads (a b : BlobRef) :
    ReadsAs stops (d.blobText a) (d.blobText b) (a = b) := by
  refine ((((((((h.str _ _).after _).between comma_mem _ (h.str _ _)).between comma_mem _
    (h.int _ _)).between comma_mem _ (h.int _ _)).between comma_mem _ (h.str _ _)).between
    comma_mem _ (blobLabels_reads h _ _)).before space_mem _).mono ?_
  rintro ⟨⟨⟨⟨⟨hbucket, hentry⟩, htimestamp⟩, hsize⟩, hcontent⟩, hlabels⟩
  cases a
  cases b
  simp_all [UInt64.toNat_inj]

end
end StdDebug

/-! ### Reading values -/

/-- The first two letters of a text tell the variants apart. -/
def PropertyValue.initials : PropertyValue → List Char
  | .null => ['N', 'u']
  | .boolean _ => ['B', 'o']
  | .integer _ => ['I', 'n']
  | .float _ => ['F', 'l']
  | .string _ => ['S', 't']
  | .bytes _ => ['B', 'y']
  | .list _ => ['L', 'i']
  | .map _ => ['M', 'a']
  | .node _ => ['N', 'o']
  | .relationship _ => ['R', 'e']
  | .path _ _ => ['P', 'a']
  | .date _ => ['D', 'a']
  | .localDateTime _ => ['L', 'o']
  | .zonedDateTime _ => ['Z', 'o']
  | .duration _ => ['D', 'u']
  | .point _ => ['P', 'o']
  | .blobRef _ => ['B', 'l']

open StdDebug

section
variable (d : StdDebug)

theorem PropertyValue.debug_eq (v : PropertyValue) :
    v.debug d = v.initials ++ (v.debug d).drop 2 := by
  cases v <;> rfl

theorem PropertyValue.debug_start (v : PropertyValue) (s : List Char) :
    ¬ AtStop stops (v.debug d ++ s) := by
  rw [v.debug_eq]
  cases v <;> exact fun h => absurd (atStop_cons.mp h) (by simp [stops])

private theorem readsAs_of_initials_ne {v w : PropertyValue} (h : v.initials ≠ w.initials)
    (P : Prop) : ReadsAs stops (v.debug d) (w.debug d) P := by
  have hlength : ∀ v : PropertyValue, v.initials.length = 2 := fun v => by cases v <;> rfl
  rw [v.debug_eq, w.debug_eq]
  exact readsAs_of_ne _ _ ((hlength v).trans (hlength w).symm) h _ _ _

theorem NodeValue.debug_start (n : NodeValue) (s : List Char) :
    ¬ AtStop stops (n.debug d ++ s) := by
  have hn : n.debug d = ['N'] ++ (n.debug d).drop 1 := by cases n; rfl
  rw [hn]
  exact fun h => absurd (atStop_cons.mp h) (by simp [stops])

theorem RelationshipValue.debug_start (r : RelationshipValue) (s : List Char) :
    ¬ AtStop stops (r.debug d ++ s) := by
  have hr : r.debug d = ['R'] ++ (r.debug d).drop 1 := by cases r; rfl
  rw [hr]
  exact fun h => absurd (atStop_cons.mp h) (by simp [stops])

theorem listDebug_eq (l : List PropertyValue) : listDebug d l = l.map (PropertyValue.debug d) := by
  induction l with
  | nil => rfl
  | cons v l ih => exact congrArg (cons _) ih

def entryDebug (entry : String × PropertyValue) : List Char :=
  d.str entry.1 ++ ':' :: [' '] ++ entry.2.debug d

theorem entryDebug_start {d : StdDebug} (h : d.Documented) (entry : String × PropertyValue)
    (s : List Char) : ¬ AtStop stops (entryDebug d entry ++ s) :=
  not_atStop_append (not_atStop_append (h.str_start entry.1) _) _ s

theorem entriesDebug_eq (m : List (String × PropertyValue)) :
    entriesDebug d m = m.map (entryDebug d) := by
  induction m with
  | nil => rfl
  | cons entry m ih => exact congrArg (cons _) ih

private theorem entriesText_reads {d : StdDebug} (h : d.Documented)
    (m m' : List (String × PropertyValue)) {R : _ → _ → Prop}
    (hreads : ∀ e ∈ m, ∀ e', ReadsAs stops (entryDebug d e) (entryDebug d e') (R e e')) :
    ReadsAs stops (mapText (entriesDebug d m)) (mapText (entriesDebug d m')) (Forall₂ R m m') := by
  rw [entriesDebug_eq, entriesDebug_eq]
  exact mapText_reads (fun e he e' _ => hreads e he e') (entryDebug_start h)

theorem nodesDebug_eq (l : List NodeValue) : nodesDebug d l = l.map (NodeValue.debug d) := by
  induction l with
  | nil => rfl
  | cons n l ih => exact congrArg (cons _) ih

theorem relationshipsDebug_eq (l : List RelationshipValue) :
    relationshipsDebug d l = l.map (RelationshipValue.debug d) := by
  induction l with
  | nil => rfl
  | cons r l ih => exact congrArg (cons _) ih

end

/-- `eq` of lists, as that of each of their elements. -/
theorem listEq_of_forall₂ {A : Type} {eq : A → A → Bool} {listEq : List A → List A → Bool}
    (hnil : listEq [] [] = true)
    (hcons : ∀ a b l m, listEq (a :: l) (b :: m) = (eq a b && listEq l m)) {l m : List A}
    (h : Forall₂ (fun a b => eq b b = true → eq a b = true) l m) (hself : listEq m m = true) :
    listEq l m = true := by
  induction h with
  | nil => exact hnil
  | cons hfirst _ ih =>
    rw [hcons, Bool.and_eq_true] at hself ⊢
    exact ⟨hfirst hself.1, ih hself.2⟩

theorem entriesEq_of_forall₂ {l m : List (String × PropertyValue)}
    (h : Forall₂ (fun e e' => e.1 = e'.1 ∧ (e'.2.eq e'.2 = true → e.2.eq e'.2 = true)) l m)
    (hself : entriesEq m m = true) : entriesEq l m = true := by
  induction h with
  | nil => rfl
  | cons hfirst _ ih =>
    obtain ⟨hw, hm⟩ := Bool.and_eq_true_iff.mp hself
    obtain ⟨-, hvalue⟩ := Bool.and_eq_true_iff.mp hw
    exact Bool.and_eq_true_iff.mpr
      ⟨Bool.and_eq_true_iff.mpr ⟨decide_eq_true hfirst.1, hfirst.2 hvalue⟩, ih hm⟩

section
variable {d : StdDebug}

theorem variant_reads {a b : List Char} {P : Prop} (hreads : ReadsAs stops a b P) (name : String) :
    ReadsAs stops (variant name a) (variant name b) P :=
  (hreads.after _).before paren_mem []

mutual

/-- **A text is read back**: it is told from what follows it, and a value without a NaN is equal to
every value with its text. -/
theorem PropertyValue.debug_reads (h : d.Documented) : ∀ v w : PropertyValue,
    ReadsAs stops (v.debug d) (w.debug d) (w.eq w = true → v.eq w = true)
  | v, w => by
    cases v <;> cases w
    -- Texts of different variants differ in the first two letters.
    all_goals try (apply readsAs_of_initials_ne; simp [PropertyValue.initials]; done)
    case null.null => exact (readsAs_refl _).mono fun _ _ => rfl
    case boolean.boolean b b' =>
      cases b <;> cases b' <;>
        first
          | exact (readsAs_refl _).mono fun _ _ => rfl
          | exact variant_reads (readsAs_of_ne ['t'] ['f'] rfl (by decide) _ _ _) _
          | exact variant_reads (readsAs_of_ne ['f'] ['t'] rfl (by decide) _ _ _) _
    case integer.integer i j =>
      exact (variant_reads (h.int _ _) _).mono fun heq _ => decide_eq_true (Int64.toInt_inj.mp heq)
    case float.float x y => exact (variant_reads (h.float x y) _).mono fun heq hy => by rwa [heq hy]
    case string.string x y => exact (variant_reads (h.str x y) _).mono fun heq _ => decide_eq_true heq
    case bytes.bytes x y =>
      exact (variant_reads (bytesText_reads h x y) _).mono fun heq _ => decide_eq_true heq
    case list.list l m =>
      have hreads := listText_reads (fun v hv w (_ : w ∈ m) => listDebug_reads h l v hv w)
        (PropertyValue.debug_start d)
      rw [← listDebug_eq, ← listDebug_eq] at hreads
      exact (variant_reads hreads _).mono (listEq_of_forall₂ rfl fun _ _ _ _ => rfl)
    case map.map m m' =>
      have hreads := entriesText_reads h m m' (entriesDebug_reads h m)
      exact (variant_reads hreads _).mono entriesEq_of_forall₂
    case node.node n n' => exact variant_reads (NodeValue.debug_reads h n n') _
    case relationship.relationship r r' => exact variant_reads (RelationshipValue.debug_reads h r r') _
    case path.path nodes relationships nodes' relationships' =>
      have hnodes := listText_reads
        (fun n hn n' (_ : n' ∈ nodes') => nodesDebug_reads h nodes n hn n') (NodeValue.debug_start d)
      have hrelationships := listText_reads
        (fun r hr r' (_ : r' ∈ relationships') => relationshipsDebug_reads h relationships r hr r')
        (RelationshipValue.debug_start d)
      rw [← nodesDebug_eq, ← nodesDebug_eq] at hnodes
      rw [← relationshipsDebug_eq, ← relationshipsDebug_eq] at hrelationships
      refine (variant_reads (((hnodes.after _).between comma_mem _ hrelationships).before space_mem
        _) _).mono fun hboth hself => ?_
      obtain ⟨hself, hself'⟩ := Bool.and_eq_true_iff.mp hself
      exact Bool.and_eq_true_iff.mpr ⟨listEq_of_forall₂ rfl (fun _ _ _ _ => rfl) hboth.1 hself,
        listEq_of_forall₂ rfl (fun _ _ _ _ => rfl) hboth.2 hself'⟩
    case date.date x y => exact (variant_reads (h.date x y) _).mono fun heq _ => decide_eq_true heq
    case localDateTime.localDateTime x y =>
      exact (variant_reads (h.dateTime x y) _).mono fun heq _ => decide_eq_true heq
    case zonedDateTime.zonedDateTime x y =>
      exact (variant_reads (h.utc x y) _).mono fun heq _ => decide_eq_true heq
    case duration.duration x y =>
      exact (variant_reads (durationText_reads h x y) _).mono fun heq _ => decide_eq_true heq
    case point.point p q =>
      exact (variant_reads (pointText_reads h p q) _).mono fun heq hq => by rwa [heq hq]
    case blobRef.blobRef a b =>
      exact (variant_reads (blobText_reads h a b) _).mono fun heq hb => by rwa [heq]

theorem NodeValue.debug_reads (h : d.Documented) : ∀ n n' : NodeValue,
    ReadsAs stops (n.debug d) (n'.debug d) (n'.eq n' = true → n.eq n' = true)
  | .mk id labels properties, .mk id' labels' properties' => by
    have hproperties := entriesText_reads h _ properties' (entriesDebug_reads h properties)
    refine (((((bytesText_reads h id id').after _).between comma_mem _
      (labelsText_reads h labels labels')).between comma_mem _ hproperties).before space_mem
      _).mono ?_
    rintro ⟨⟨rfl, rfl⟩, hforall⟩ hself
    simp only [NodeValue.eq, Bool.and_eq_true] at hself ⊢
    exact ⟨hself.1, entriesEq_of_forall₂ hforall hself.2⟩

theorem RelationshipValue.debug_reads (h : d.Documented) : ∀ r r' : RelationshipValue,
    ReadsAs stops (r.debug d) (r'.debug d) (r'.eq r' = true → r.eq r' = true)
  | .mk id relType start stop properties, .mk id' relType' start' stop' properties' => by
    have hproperties := entriesText_reads h _ properties' (entriesDebug_reads h properties)
    refine (((((((bytesText_reads h id id').after _).between comma_mem _
      (h.str relType relType')).between comma_mem _ (bytesText_reads h start start')).between
      comma_mem _ (bytesText_reads h stop stop')).between comma_mem _ hproperties).before space_mem
      _).mono ?_
    rintro ⟨⟨⟨⟨rfl, rfl⟩, rfl⟩, rfl⟩, hforall⟩ hself
    simp only [RelationshipValue.eq, Bool.and_eq_true] at hself ⊢
    exact ⟨hself.1, entriesEq_of_forall₂ hforall hself.2⟩

theorem listDebug_reads (h : d.Documented) : ∀ l : List PropertyValue, ∀ v ∈ l, ∀ w : PropertyValue,
    ReadsAs stops (v.debug d) (w.debug d) (w.eq w = true → v.eq w = true)
  | u :: l, v, hv, w => (mem_cons.mp hv).elim
      (fun heq => by rw [heq]; exact PropertyValue.debug_reads h u w) fun hv => listDebug_reads h l v hv w

theorem entriesDebug_reads (h : d.Documented) : ∀ m : List (String × PropertyValue), ∀ e ∈ m,
    ∀ e' : String × PropertyValue, ReadsAs stops (entryDebug d e) (entryDebug d e')
      (e.1 = e'.1 ∧ (e'.2.eq e'.2 = true → e.2.eq e'.2 = true))
  | (k, v) :: m, e, he, e' => (mem_cons.mp he).elim
      (fun heq => by
        rw [heq]
        exact (h.str k e'.1).between colon_mem _ (PropertyValue.debug_reads h v e'.2))
      fun he => entriesDebug_reads h m e he e'

theorem nodesDebug_reads (h : d.Documented) : ∀ l : List NodeValue, ∀ n ∈ l, ∀ n' : NodeValue,
    ReadsAs stops (n.debug d) (n'.debug d) (n'.eq n' = true → n.eq n' = true)
  | u :: l, n, hn, n' => (mem_cons.mp hn).elim
      (fun heq => by rw [heq]; exact NodeValue.debug_reads h u n') fun hn => nodesDebug_reads h l n hn n'

theorem relationshipsDebug_reads (h : d.Documented) : ∀ l : List RelationshipValue, ∀ r ∈ l,
    ∀ r' : RelationshipValue,
    ReadsAs stops (r.debug d) (r'.debug d) (r'.eq r' = true → r.eq r' = true)
  | u :: l, r, hr, r' => (mem_cons.mp hr).elim
      (fun heq => by rw [heq]; exact RelationshipValue.debug_reads h u r')
      fun hr => relationshipsDebug_reads h l r hr r'

end
end

/-! ### Texts of strokes -/

def strokes (n : Nat) : List Char := replicate (n + 1) 'i'

theorem strokes_reads (n m : Nat) : ReadsAs stops (strokes n) (strokes m) (n = m) := by
  have hstroke : ∀ s : List Char, ¬ AtStop stops ('i' :: s) := fun s h =>
    absurd (atStop_cons.mp h) (by simp [stops])
  induction n generalizing m with
  | zero =>
    cases m with
    | zero => exact (readsAs_refl _).mono fun _ => rfl
    | succ m =>
      intro s t hs _ heq
      have hrest : s = 'i' :: (replicate m 'i' ++ t) := (cons.inj heq).2
      exact absurd (hrest ▸ hs) (hstroke _)
  | succ n ih =>
    cases m with
    | zero =>
      intro s t _ ht heq
      have hrest : 'i' :: (replicate n 'i' ++ s) = t := (cons.inj heq).2
      exact absurd (hrest ▸ ht) (hstroke _)
    | succ m => exact ((ih m).after ['i']).mono fun heq => by rw [heq]

/-- Numbers, strings and times in strokes. -/
def strokeDebug : StdDebug where
  int i := strokes (Encodable.encode i)
  float x := strokes (if x.eq x then x.bits.toNat + 1 else 0)
  str s := strokes (Encodable.encode (s.toList.map Char.toNat))
  date x := strokes (Encodable.encode x.daysFromCe)
  dateTime x := strokes (Encodable.encode (x.date.daysFromCe, x.secs, x.nanos))
  utc x := strokes (Encodable.encode (x.date.daysFromCe, x.secs, x.nanos))

theorem strokeDebug_documented : strokeDebug.Documented := by
  have hstart : ∀ n s, ¬ AtStop stops (strokes n ++ s) := fun n s h =>
    absurd (atStop_cons.mp h) (by simp [stops])
  have htime : ∀ x y : NaiveDateTime, Encodable.encode (x.date.daysFromCe, x.secs, x.nanos) =
      Encodable.encode (y.date.daysFromCe, y.secs, y.nanos) → x = y := by
    rintro ⟨⟨days⟩, secs, nanos⟩ ⟨⟨days'⟩, secs', nanos'⟩ heq
    cases Encodable.encode_injective heq
    rfl
  refine ⟨fun i j => ?_, fun x y => ?_, fun s t => ?_, fun x y => ?_, fun x y => ?_, fun x y => ?_,
    fun i => hstart _, fun s => hstart _⟩
  · exact (strokes_reads _ _).mono fun heq => Encodable.encode_injective heq
  · refine (strokes_reads _ _).mono fun heq hy => ?_
    rw [if_pos hy] at heq
    split at heq
    · cases x
      cases y
      exact congrArg F64.mk (BitVec.eq_of_toNat_eq (Nat.succ.inj heq))
    · cases heq
  · refine (strokes_reads _ _).mono fun heq => ?_
    have hchars := (map_injective_iff.mpr fun _ _ => Char.toNat_inj.mp)
      (Encodable.encode_injective heq)
    exact String.toList_injective hchars
  · exact (strokes_reads _ _).mono fun heq => by
      cases x
      cases y
      exact congrArg NaiveDate.mk (Encodable.encode_injective heq)
  · exact (strokes_reads _ _).mono (htime x y)
  · exact (strokes_reads _ _).mono (htime x y)

end Nexora
