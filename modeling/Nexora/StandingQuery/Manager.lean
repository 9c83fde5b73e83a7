import Nexora.Lib.Table
import Nexora.StandingQuery.Pattern

/-!
# Standing queries

The manager keeps for each query and node whether the node matches
(`nexora-standing-query/src/lib.rs`). A change of a node starts a callback, which clones the queries
and then for each of them reads the graph and, some time later, takes the lock of the match states.
-/

namespace Nexora.StandingQuery
open Lib List Function
variable {N V : Type} [DecidableEq N]

/-! ### Changes and their callbacks -/

inductive Change (N V : Type) where
  | property (key : String) (value : Option V)
  | labelAdded (label : String)
  | labelRemoved (label : String)
  | edgeAdded (edge : HalfEdge N)
  | edgeRemoved (edge : HalfEdge N)

namespace Change

def apply (g : Graph N V) (n : N) : Change N V → Graph N V
  | property key value =>
    { g with properties := update g.properties n (update (g.properties n) key value) }
  | labelAdded label => { g with labels := update g.labels n (label :: g.labels n) }
  | labelRemoved label =>
    { g with labels := update g.labels n ((g.labels n).filter fun l => l ≠ label) }
  | edgeAdded edge => { g with edges := update g.edges n (edge :: g.edges n) }
  | edgeRemoved edge => { g with edges := update g.edges n ((g.edges n).erase edge) }

/-- The callback of the change evaluates the pattern. -/
def triggers : Change N V → Pattern V → Bool
  | property _ _ => fun _ => true
  | labelAdded label => Pattern.patternMatchesLabel label
  | labelRemoved _ => fun _ => true
  | edgeAdded edge => Pattern.patternMatchesEdge edge.edgeType
  | edgeRemoved _ => Pattern.patternNeedsEdges

/-- The callbacks of labels and edges that are added read the properties anew for each query. -/
def readsAnew : Change N V → Bool
  | labelAdded _ | edgeAdded _ => true
  | _ => false

end Change

/-- A callback: the properties that it was given or has read, the queries that it has yet to see to
once it has cloned them, and its verdict on the first of them. -/
structure Callback (N V : Type) where
  node : N
  change : Change N V
  properties : Option (String → Option V)
  remaining : Option (List (Nat × Pattern V)) := none
  verdict : Option Bool := none

def Callback.HasYet (c : Callback N V) (row : Nat × Pattern V) (n : N) : Prop :=
  c.node = n ∧ match c.remaining with
    | none => c.change.triggers row.2 = true
    | some rest => row.1 ∈ rest.map Prod.fst

/-- `results` are those emitted for a query and a node, the last one first. -/
structure StandingQueryManager (N V : Type) where
  graph : Graph N V
  queries : Table Nat (Pattern V) := Table.empty
  matchStates : Nat → N → Bool := fun _ _ => false
  results : Nat → N → List Bool := fun _ _ => []
  stored : Table Nat (Pattern V) × (Nat → N → Bool) := (Table.empty, fun _ _ => false)
  callbacks : List (Callback N V) := []

inductive Event (N V : Type) where
  | change (n : N) (c : Change N V)
  | advance (i : Nat)
  | register (id : Nat) (pattern : Pattern V)
  | update (id : Nat) (pattern : Pattern V)
  | remove (id : Nat)
  | restart

namespace StandingQueryManager
variable (labelsOf : V → Option (List String))
variable (s : StandingQueryManager N V)

def persistNow : StandingQueryManager N V := { s with stored := (s.queries, s.matchStates) }

/-- A verdict is compared with the match state under its lock, stored and emitted if it differs. -/
def storeVerdict (id : Nat) (n : N) (verdict : Bool) : StandingQueryManager N V :=
  if verdict = s.matchStates id n then s
  else
    { s with
      matchStates := update s.matchStates id (update (s.matchStates id) n verdict)
      results := update s.results id (update (s.results id) n (verdict :: s.results id n)) }

/-- The next section of a callback between two awaits, with what is left of it. -/
def advance (c : Callback N V) : StandingQueryManager N V × List (Callback N V) :=
  match c.remaining, c.verdict with
  | none, _ =>
    (s, [{ c with
      properties := if c.change.readsAnew then none
        else some (c.properties.getD (s.graph.properties c.node))
      remaining := some (s.queries.rows.filter fun row => c.change.triggers row.2) }])
  | some [], _ => (s, [])
  | some ((id, pattern) :: rest), none =>
    (s, [{ c with
      verdict := some (pattern.matchesWithEdges labelsOf s.graph
        (c.properties.getD (s.graph.properties c.node)) c.node)
      remaining := some ((id, pattern) :: rest) }])
  | some ((id, _) :: rest), some verdict =>
    (s.storeVerdict id c.node verdict, [{ c with remaining := some rest, verdict := none }])

def step : Event N V → StandingQueryManager N V
  | .change n c =>
    { s with
      graph := c.apply s.graph n
      callbacks := s.callbacks ++ [{ node := n, change := c, properties := match c with
        | .property _ _ => some ((c.apply s.graph n).properties n)
        | _ => none }] }
  | .advance i =>
    match s.callbacks[i]? with
    | none => s
    | some c =>
      { (advance labelsOf s c).1 with
        callbacks := s.callbacks.take i ++ (advance labelsOf s c).2 ++ s.callbacks.drop (i + 1) }
  | .register id pattern => { s with queries := s.queries.put id pattern }.persistNow
  | .update id pattern =>
    if (s.queries.find? id).isSome then { s with queries := s.queries.put id pattern }.persistNow
    else s
  | .remove id =>
    if (s.queries.find? id).isSome then
      { s with
        queries := s.queries.erase id
        matchStates := update s.matchStates id fun _ => false }.persistNow
    else s
  | .restart => { s with queries := s.stored.1, matchStates := s.stored.2, callbacks := [] }

/-! ### What holds -/

def Alternating (results : List Bool) : Prop :=
  results.IsChain (· ≠ ·) ∧ results.getLast? ≠ some false

def Pending (row : Nat × Pattern V) (n : N) : Prop := ∃ c ∈ s.callbacks, c.HasYet row n

/-- A node changes when no callback of it is under way, and with it the truth of a registered
pattern only there and only if the change triggers it. A plain pattern is registered under a new id
where it holds of nothing, or takes the place of another that matches the same nodes. Queries are
updated and removed, and the process is restarted, when no callback is under way, and the store then
has what the manager has. -/
def InTime : Event N V → Prop
  | .change n c => (∀ c' ∈ s.callbacks, c'.node ≠ n) ∧
      ∀ row ∈ s.queries.rows, ∀ m, row.2.holds (c.apply s.graph n) m ≠ row.2.holds s.graph m →
        m = n ∧ c.triggers row.2 = true
  | .advance _ => True
  | .register id pattern => pattern.plain = true ∧ s.queries.find? id = none ∧
      ∀ n, pattern.holds s.graph n = false ∧ s.matchStates id n = false ∧ s.results id n = []
  | .update id pattern => s.callbacks = [] ∧ pattern.plain = true ∧
      ∀ n, pattern.holds s.graph n = s.matchStates id n
  | .remove _ => s.callbacks = []
  | .restart => s.callbacks = [] ∧ s.stored = (s.queries, s.matchStates)

/-- What a callback has read is still so. -/
structure UpToDate (c : Callback N V) : Prop where
  properties : ∀ properties ∈ c.properties, properties = s.graph.properties c.node
  remaining : ∀ rest ∈ c.remaining, ∀ row ∈ rest, row ∈ s.queries.rows
  verdict : ∀ verdict ∈ c.verdict, ∃ row rest, c.remaining = some (row :: rest) ∧
    verdict = row.2.holds s.graph c.node

structure Sound (s : StandingQueryManager N V) : Prop where
  plain : ∀ row ∈ s.queries.rows, row.2.plain = true
  upToDate : ∀ c ∈ s.callbacks, s.UpToDate c
  truth : ∀ row ∈ s.queries.rows, ∀ n,
    s.matchStates row.1 n = row.2.holds s.graph n ∨ s.Pending row n
  last : ∀ id, (s.queries.find? id).isSome → ∀ n,
    s.matchStates id n = (s.results id n).head?.getD false
  alternating : ∀ id n, Alternating (s.results id n)

theorem Alternating.cons {results : List Bool} (h : Alternating results) {b : Bool}
    (hb : b ≠ results.head?.getD false) : Alternating (b :: results) := by
  obtain ⟨hchain, hlast⟩ := h
  cases results with
  | nil => exact ⟨.singleton b, by simpa using hb⟩
  | cons first results =>
    exact ⟨isChain_cons_cons.mpr ⟨hb, hchain⟩, by rwa [getLast?_cons_cons]⟩

section
variable (id : Nat) (n : N) (verdict : Bool) (id' : Nat) (n' : N)

theorem matchStates_storeVerdict : (s.storeVerdict id n verdict).matchStates id' n' =
    if id' = id ∧ n' = n then verdict else s.matchStates id' n' := by
  unfold storeVerdict
  by_cases hid : id' = id <;> by_cases hn : n' = n <;> split <;> simp_all [update]

theorem results_storeVerdict : (s.storeVerdict id n verdict).results id' n' =
    if (id' = id ∧ n' = n) ∧ verdict ≠ s.matchStates id n then verdict :: s.results id n
    else s.results id' n' := by
  unfold storeVerdict
  by_cases hid : id' = id <;> by_cases hn : n' = n <;> split <;> simp_all [update]

private theorem queries_graph_storeVerdict : (s.storeVerdict id n verdict).queries = s.queries ∧
    (s.storeVerdict id n verdict).graph = s.graph := by
  unfold storeVerdict
  split <;> exact ⟨rfl, rfl⟩

end

variable {s} {s' : StandingQueryManager N V}

/-! ### A section of a callback -/

section Section
variable {i : Nat} {c : Callback N V} {left : List (Callback N V)} (hc : s.callbacks[i]? = some c)
  (hs' : s'.callbacks = s.callbacks.take i ++ left ++ s.callbacks.drop (i + 1))

include hs'

omit [DecidableEq N] in
theorem UpToDate.of_callbacks (h : ∀ c ∈ s.callbacks, s.UpToDate c)
    (hsame : s'.queries = s.queries ∧ s'.graph = s.graph) (hleft : ∀ c' ∈ left, s.UpToDate c') :
    ∀ c' ∈ s'.callbacks, s'.UpToDate c' := by
  intro c' hc'
  have hold : s.UpToDate c' := by
    rw [hs', append_assoc, mem_append, mem_append] at hc'
    rcases hc' with hmem | hmem | hmem
    · exact h c' (mem_of_mem_take hmem)
    · exact hleft c' hmem
    · exact h c' (mem_of_mem_drop hmem)
  exact ⟨hsame.2 ▸ hold.properties, hsame.1 ▸ hold.remaining, hsame.2 ▸ hold.verdict⟩

include hc

omit [DecidableEq N] in
theorem Pending.of_callbacks {row : Nat × Pattern V} {n : N} (h : s.Pending row n)
    (hleft : c.HasYet row n → ∃ c' ∈ left, c'.HasYet row n) : s'.Pending row n := by
  obtain ⟨c₀, hmem, hyet⟩ := h
  rw [eq_take_append_cons_drop hc, mem_append, mem_cons] at hmem
  rw [Pending, hs']
  rcases hmem with hmem | rfl | hmem
  · exact ⟨c₀, mem_append_left _ (mem_append_left _ hmem), hyet⟩
  · obtain ⟨c', hmem', hyet'⟩ := hleft hyet
    exact ⟨c', mem_append_left _ (mem_append_right _ hmem'), hyet'⟩
  · exact ⟨c₀, mem_append_right _ hmem, hyet⟩

omit [DecidableEq N] in
/-- A section that stores nothing. -/
theorem Sound.of_callbacks (h : s.Sound) (hrest : s' = { s with callbacks := s'.callbacks })
    (hleft : ∀ c' ∈ left, s.UpToDate c')
    (hyet : ∀ row ∈ s.queries.rows, ∀ n, c.HasYet row n → ∃ c' ∈ left, c'.HasYet row n) :
    s'.Sound := by
  have hqueries : s'.queries = s.queries := hrest ▸ rfl
  have hgraph : s'.graph = s.graph := hrest ▸ rfl
  have hstates : s'.matchStates = s.matchStates := hrest ▸ rfl
  have hresults : s'.results = s.results := hrest ▸ rfl
  refine ⟨hqueries ▸ h.plain, UpToDate.of_callbacks hs' h.upToDate ⟨hqueries, hgraph⟩ hleft,
    fun row hrow n => ?_, ?_, hresults ▸ h.alternating⟩
  · rw [hqueries] at hrow
    rw [hstates, hgraph]
    exact (h.truth row hrow n).imp_right fun hpending =>
      hpending.of_callbacks hc hs' (hyet row hrow n)
  · rw [hqueries, hstates, hresults]
    exact h.last

end Section

theorem Sound.storeVerdict {i : Nat} {c : Callback N V} {id : Nat} {pattern : Pattern V}
    {rest : List (Nat × Pattern V)} {verdict : Bool} (h : s.Sound) (hc : s.callbacks[i]? = some c)
    (hremaining : c.remaining = some ((id, pattern) :: rest))
    (hverdict : c.verdict = some verdict) :
    { s.storeVerdict id c.node verdict with callbacks := s.callbacks.take i ++
      [{ c with remaining := some rest, verdict := none }] ++ s.callbacks.drop (i + 1) }.Sound := by
  have hold := h.upToDate c (mem_of_getElem? hc)
  have htrue : verdict = pattern.holds s.graph c.node := by
    obtain ⟨row, rest', heq, htrue⟩ := hold.verdict verdict hverdict
    cases hremaining.symm.trans heq
    exact htrue
  have hfind : s.queries.find? id = some pattern :=
    Table.find?_eq_some_iff.mpr (hold.remaining _ hremaining _ mem_cons_self)
  have hlast := h.last id (hfind ▸ rfl) c.node
  obtain ⟨hqueries, hgraph⟩ := queries_graph_storeVerdict s id c.node verdict
  refine ⟨hqueries ▸ h.plain, UpToDate.of_callbacks rfl h.upToDate ⟨hqueries, hgraph⟩ ?_,
    fun row hrow n => ?_, fun id' hid' n => ?_, fun id' n => ?_⟩
  · intro c' hc'
    rw [mem_singleton.mp hc']
    refine ⟨hold.properties, ?_, nofun⟩
    rintro _ ⟨⟩ row hrow
    exact hold.remaining _ hremaining row (mem_cons_of_mem _ hrow)
  · simp only [hqueries] at hrow
    simp only [matchStates_storeVerdict, hgraph]
    by_cases hpair : row.1 = id ∧ n = c.node
    · obtain ⟨rfl, rfl⟩ := hpair
      have hsame : row.2 = pattern :=
        Option.some.inj ((Table.find?_eq_some_iff.mpr hrow).symm.trans hfind)
      rw [if_pos ⟨rfl, rfl⟩, hsame]
      exact .inl htrue
    · rw [if_neg hpair]
      refine (h.truth row hrow n).imp_right fun hpending => hpending.of_callbacks hc rfl ?_
      rintro ⟨hnode, hyet⟩
      rw [hremaining] at hyet
      refine ⟨_, mem_cons_self, hnode, ?_⟩
      exact (mem_cons.mp hyet).resolve_left fun heq => hpair ⟨heq, hnode.symm⟩
  · simp only [hqueries] at hid'
    simp only [matchStates_storeVerdict, results_storeVerdict]
    by_cases hpair : id' = id ∧ n = c.node
    · obtain ⟨rfl, rfl⟩ := hpair
      by_cases hsame : verdict = s.matchStates id' c.node
      · simp [hsame, hlast]
      · simp [hsame]
    · simp only [hpair, if_false, false_and]
      exact h.last id' hid' n
  · simp only [results_storeVerdict]
    split
    · next hnew => exact (h.alternating id c.node).cons (hlast ▸ hnew.2)
    · exact h.alternating id' n

theorem sound_advance (h : s.Sound) (i : Nat) : (s.step labelsOf (.advance i)).Sound := by
  cases hc : s.callbacks[i]? with
  | none =>
    simp only [step, hc]
    exact h
  | some c =>
    have hold := h.upToDate c (mem_of_getElem? hc)
    have hread : c.properties.getD (s.graph.properties c.node) = s.graph.properties c.node := by
      cases hproperties : c.properties with
      | none => rfl
      | some properties => exact hold.properties properties hproperties
    simp only [step, hc, advance, hread]
    split
    · next hnone =>
      refine h.of_callbacks hc rfl rfl ?_ fun row hrow n ⟨hnode, hyet⟩ =>
        ⟨_, mem_cons_self, hnode, ?_⟩
      · intro c' hc'
        rw [mem_singleton.mp hc']
        refine ⟨fun properties hproperties => ?_, ?_, ?_⟩
        · simp only [Option.mem_def, Option.ite_none_left_eq_some] at hproperties
          exact (Option.some.inj hproperties.2).symm
        · rintro _ ⟨⟩ row hrow
          exact mem_of_mem_filter hrow
        · intro verdict hverdict
          obtain ⟨row, rest, heq, -⟩ := hold.verdict verdict hverdict
          cases hnone.symm.trans heq
      · rw [hnone] at hyet
        exact mem_map_of_mem (mem_filter.mpr ⟨hrow, hyet⟩)
    · next hnil =>
      refine h.of_callbacks hc rfl rfl nofun fun row _ n ⟨_, hyet⟩ => ?_
      rw [hnil] at hyet
      cases hyet
    · next id pattern rest hcons _ =>
      have hplain := h.plain _ (hold.remaining _ hcons _ mem_cons_self)
      refine h.of_callbacks hc rfl rfl ?_ fun row _ n ⟨hnode, hyet⟩ => ⟨_, mem_cons_self, hnode, ?_⟩
      · intro c' hc'
        rw [mem_singleton.mp hc']
        refine ⟨hold.properties, hcons ▸ hold.remaining, ?_⟩
        rintro _ ⟨⟩
        exact ⟨_, _, rfl, pattern.matchesWithEdges_eq_holds labelsOf s.graph hplain c.node⟩
      · rwa [hcons] at hyet
    · next id pattern rest verdict hcons hverdict => exact h.storeVerdict hc hcons hverdict

/-! ### A change of a node -/

theorem properties_apply (g : Graph N V) {n m : N} (h : m ≠ n) (c : Change N V) :
    (c.apply g n).properties m = g.properties m := by
  cases c with
  | property key value => exact update_of_ne h _ _
  | _ => rfl

theorem sound_change (h : s.Sound) {n : N} {c : Change N V} (hevent : s.InTime (.change n c)) :
    (s.step labelsOf (.change n c)).Sound := by
  obtain ⟨hidle, halters⟩ := hevent
  refine ⟨h.plain, fun c' hc' => ?_, fun row hrow m => ?_, h.last, h.alternating⟩
  · rcases mem_append.mp hc' with hc' | hc'
    · have hold := h.upToDate c' hc'
      have hnode := hidle c' hc'
      refine ⟨fun properties hproperties => ?_, hold.remaining, fun verdict hverdict => ?_⟩
      · exact (hold.properties properties hproperties).trans (properties_apply _ hnode c).symm
      · obtain ⟨row, rest, hremaining, htrue⟩ := hold.verdict verdict hverdict
        have hrow := hold.remaining _ hremaining row mem_cons_self
        refine ⟨row, rest, hremaining, htrue.trans (by_contra fun hne => hnode ?_)⟩
        exact (halters row hrow c'.node (Ne.symm hne)).1
    · rw [mem_singleton.mp hc']
      refine ⟨fun properties hproperties => ?_, nofun, nofun⟩
      cases c with
      | property key value => exact (Option.some.inj hproperties).symm
      | _ => cases hproperties
  · by_cases hsame : row.2.holds (c.apply s.graph n) m = row.2.holds s.graph m
    · rcases h.truth row hrow m with htruth | ⟨c₀, hmem, hyet⟩
      · exact .inl (htruth.trans hsame.symm)
      · exact .inr ⟨c₀, mem_append_left _ hmem, hyet⟩
    · obtain ⟨rfl, htriggers⟩ := halters row hrow m hsame
      exact .inr ⟨_, mem_append_right _ mem_cons_self, rfl, htriggers⟩

theorem sound_step (h : s.Sound) (event : Event N V) (hevent : s.InTime event) :
    (s.step labelsOf event).Sound := by
  cases event with
  | advance i => exact sound_advance labelsOf h i
  | change n c => exact sound_change labelsOf h hevent
  | register id pattern =>
    obtain ⟨hplain, hnew, hnothing⟩ := hevent
    have hkeeps : ∀ row ∈ s.queries.rows, row ∈ (s.queries.put id pattern).rows := fun row hrow =>
      Table.find?_eq_some_iff.mp ((Table.find?_put _ _ _ _).trans ((if_neg fun heq => by
        rw [← heq, Table.find?_eq_some_iff.mpr hrow] at hnew
        cases hnew).trans (Table.find?_eq_some_iff.mpr hrow)))
    refine ⟨fun row hrow => ?_, fun c hc => ?_, fun row hrow n => ?_, fun id' hid' n => ?_,
      h.alternating⟩
    · rcases mem_of_mem_putRow hrow with rfl | hrow
      · exact hplain
      · exact h.plain row hrow
    · have hold := h.upToDate c hc
      exact ⟨hold.properties, fun rest hrest row hrow => hkeeps row (hold.remaining rest hrest row hrow),
        hold.verdict⟩
    · rcases mem_of_mem_putRow hrow with rfl | hrow
      · exact .inl ((hnothing n).2.1.trans (hnothing n).1.symm)
      · exact h.truth row hrow n
    · show s.matchStates id' n = (s.results id' n).head?.getD false
      by_cases heq : id' = id
      · rw [heq, (hnothing n).2.1, (hnothing n).2.2]
        rfl
      · have hid' : ((s.queries.put id pattern).find? id').isSome := hid'
        rw [Table.find?_put, if_neg heq] at hid'
        exact h.last id' hid' n
  | update id pattern =>
    obtain ⟨hidle, hplain, hsame⟩ := hevent
    simp only [step]
    split
    · next hsome =>
      refine ⟨fun row hrow => ?_, hidle ▸ nofun, fun row hrow n => ?_, fun id' hid' n => ?_,
        h.alternating⟩
      · rcases mem_of_mem_putRow hrow with rfl | hrow
        · exact hplain
        · exact h.plain row hrow
      · rcases mem_of_mem_putRow hrow with rfl | hrow
        · exact .inl (hsame n).symm
        · exact h.truth row hrow n
      · have hid' : ((s.queries.put id pattern).find? id').isSome := hid'
        rw [Table.find?_put] at hid'
        refine h.last id' ?_ n
        by_cases heq : id' = id
        · exact heq ▸ hsome
        · rwa [if_neg heq] at hid'
    · exact h
  | remove id =>
    simp only [step]
    split
    · refine ⟨fun row hrow => h.plain row (mem_of_mem_filter hrow), hevent ▸ nofun,
        fun row hrow n => ?_, fun id' hid' n => ?_, h.alternating⟩
      · obtain ⟨hrow, hne⟩ := mem_filter.mp hrow
        have hne : row.1 ≠ id := of_decide_eq_true hne
        simp only [persistNow, update_of_ne hne]
        exact h.truth row hrow n
      · have hid' : ((s.queries.erase id).find? id').isSome := hid'
        rw [Table.find?_erase] at hid'
        split at hid'
        · cases hid'
        · next hne =>
          simp only [persistNow, update_of_ne hne]
          exact h.last id' hid' n
    · exact h
  | restart =>
    obtain ⟨hidle, hstored⟩ := hevent
    simp only [step, hstored]
    refine ⟨h.plain, nofun, fun row hrow n => (h.truth row hrow n).imp_right ?_, h.last,
      h.alternating⟩
    rintro ⟨c, hmem, -⟩
    exact absurd (hidle ▸ hmem) not_mem_nil

end StandingQueryManager
end Nexora.StandingQuery
