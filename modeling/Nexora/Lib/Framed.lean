import Mathlib.Data.List.Basic
import Mathlib.Tactic.Push

/-!
# Logs of framed records

A reader takes one record off the front of the bytes, or says that the file ends here, or that the
bytes are no record. `Reader.scan` takes records off until the reader stops. Of a file that a crash
has cut it finds the complete records (`Reader.stops_torn`).
-/

namespace Lib
open List

/-- What a reader makes of the front of the bytes. -/
inductive Item (α β : Type) where
  | record (a : α) (rest : List β)
  | eof
  | bad

/-- The outcome of reading a whole file: the records, the bytes behind the last one, and whether the
reader stopped at what it took for the end of the file. -/
structure Scan (α β : Type) where
  records : List α
  rest : List β
  clean : Bool

/-- A reader of single records. It decides on a record by the bytes it takes off, so more bytes
behind them change nothing; and it takes a file for ended exactly when there are fewer bytes than a
header's first field. -/
structure Reader (α β : Type) where
  read : List β → Item α β
  header : Nat
  header_pos : 0 < header
  extend : ∀ bytes more a rest, read bytes = .record a rest → read (bytes ++ more) = .record a (rest ++ more)
  eof_iff : ∀ bytes, read bytes = .eof ↔ bytes.length < header

namespace Reader
variable {α β : Type} (R : Reader α β)

def scan : Nat → List β → Scan α β
  | 0, bytes => ⟨[], bytes, true⟩
  | fuel + 1, bytes =>
      match R.read bytes with
      | .record a rest => ⟨a :: (scan fuel rest).records, (scan fuel rest).rest, (scan fuel rest).clean⟩
      | .eof => ⟨[], bytes, true⟩
      | .bad => ⟨[], bytes, false⟩

variable {bytes : List β} {fuel : Nat}

variable {a : α}

theorem scan_record {rest : List β} (fuel : Nat) (h : R.read bytes = .record a rest) :
    R.scan (fuel + 1) bytes =
      ⟨a :: (R.scan fuel rest).records, (R.scan fuel rest).rest, (R.scan fuel rest).clean⟩ := by
  rw [scan, h]

theorem scan_eof (hfuel : 0 < fuel) (h : R.read bytes = .eof) :
    R.scan fuel bytes = ⟨[], bytes, true⟩ := by
  obtain ⟨fuel, rfl⟩ := Nat.exists_eq_succ_of_ne_zero (Nat.ne_of_gt hfuel)
  rw [scan, h]

theorem scan_bad (hfuel : 0 < fuel) (h : R.read bytes = .bad) :
    R.scan fuel bytes = ⟨[], bytes, false⟩ := by
  obtain ⟨fuel, rfl⟩ := Nat.exists_eq_succ_of_ne_zero (Nat.ne_of_gt hfuel)
  rw [scan, h]

def Stops (bytes : List β) : Prop := ∀ a rest, R.read bytes ≠ .record a rest

theorem scan_stops (hfuel : 0 < fuel) (h : R.Stops bytes) :
    R.scan fuel bytes = ⟨[], bytes, decide (bytes.length < R.header)⟩ := by
  cases hread : R.read bytes with
  | record a rest => exact absurd hread (h a rest)
  | eof => rw [R.scan_eof hfuel hread, decide_eq_true ((R.eof_iff bytes).mp hread)]
  | bad =>
    have hlong : ¬ bytes.length < R.header := fun hlt => by
      rw [(R.eof_iff bytes).mpr hlt] at hread
      cases hread
    rw [R.scan_bad hfuel hread, decide_eq_false hlong]

theorem read_nil : R.read [] = .eof := (R.eof_iff []).mpr R.header_pos

theorem stops_nil : R.Stops [] := fun a rest h => by
  rw [R.read_nil] at h
  cases h

theorem stops_of_scan_records_nil (hfuel : 0 < fuel) (h : (R.scan fuel bytes).records = []) :
    R.Stops bytes := by
  intro a rest hread
  obtain ⟨fuel, rfl⟩ := Nat.exists_eq_succ_of_ne_zero (Nat.ne_of_gt hfuel)
  rw [R.scan_record fuel hread] at h
  cases h

theorem read_of_scan_singleton (hfuel : 1 < fuel) (hrecords : (R.scan fuel bytes).records = [a])
    (hkept : (R.scan fuel bytes).clean = true ∨ (R.scan fuel bytes).rest = []) :
    ∃ rest, R.read bytes = .record a rest ∧ rest.length < R.header := by
  obtain ⟨fuel, rfl⟩ := Nat.exists_eq_succ_of_ne_zero (Nat.ne_of_gt (Nat.lt_of_succ_lt hfuel))
  have hfuel' : 0 < fuel := Nat.lt_of_succ_lt_succ hfuel
  cases hread : R.read bytes with
  | eof =>
    rw [R.scan_eof (Nat.succ_pos fuel) hread] at hrecords
    cases hrecords
  | bad =>
    rw [R.scan_bad (Nat.succ_pos fuel) hread] at hrecords
    cases hrecords
  | record b rest =>
    rw [Nat.succ_eq_add_one, R.scan_record fuel hread] at hrecords hkept
    injection hrecords with hb hnil
    have hstop := R.scan_stops hfuel' (R.stops_of_scan_records_nil hfuel' hnil)
    rw [hstop] at hkept
    refine ⟨rest, hb ▸ rfl, ?_⟩
    obtain hclean | hrest := hkept
    · exact of_decide_eq_true hclean
    · have hrest' : rest = [] := hrest
      rw [hrest']
      exact R.header_pos

/-- A record takes up a piece at the front that is read as it whatever follows. -/
def Local : Prop := ∀ bytes a rest, R.read bytes = .record a rest →
  ∃ piece, 0 < piece.length ∧ bytes = piece ++ rest ∧ ∀ more, R.read (piece ++ more) = .record a more

variable {R : Reader α β}

/-- What a scan has read of a file is by itself scanned as the same records, and to its end. -/
theorem exists_scan_front (h : R.Local) (fuel : Nat) (bytes : List β) :
    ∃ front, bytes = front ++ (R.scan fuel bytes).rest ∧
      ∀ fuel' > front.length, R.scan fuel' front = ⟨(R.scan fuel bytes).records, [], true⟩ := by
  induction fuel generalizing bytes with
  | zero => exact ⟨[], rfl, fun fuel' hfuel => R.scan_eof hfuel R.read_nil⟩
  | succ fuel ih =>
    by_cases hstops : R.Stops bytes
    · rw [R.scan_stops fuel.succ_pos hstops]
      exact ⟨[], rfl, fun fuel' hfuel => R.scan_eof hfuel R.read_nil⟩
    · unfold Stops at hstops
      push Not at hstops
      obtain ⟨a, rest, hread⟩ := hstops
      obtain ⟨piece, hpos, hbytes, hpiece⟩ := h bytes a rest hread
      obtain ⟨front, hrest, hfront⟩ := ih rest
      rw [R.scan_record fuel hread]
      refine ⟨piece ++ front, by rw [append_assoc, ← hrest, hbytes], fun fuel' hfuel => ?_⟩
      rw [length_append] at hfuel
      obtain ⟨k, rfl⟩ : ∃ k, fuel' = k + 1 := ⟨fuel' - 1, by omega⟩
      rw [R.scan_record k (hpiece front), hfront k (by omega)]

/-! ### Reading frames -/

variable (frame : α → List β)

/-- The frame of this record is read as this record. -/
def Reads (a : α) : Prop := R.read (frame a) = .record a []

variable {frame}

theorem Reads.append (h : R.Reads frame a) (tail : List β) :
    R.read (frame a ++ tail) = .record a tail := by
  have hext := R.extend (frame a) tail a [] h
  rwa [nil_append] at hext

theorem Reads.frame_pos (h : R.Reads frame a) : 0 < (frame a).length := by
  rw [length_pos_iff]
  intro hnil
  rw [Reads, hnil, R.read_nil] at h
  cases h

section
variable (l : List α) (hl : ∀ a ∈ l, R.Reads frame a)
include hl

theorem length_le_flatMap : l.length ≤ (l.flatMap frame).length := by
  induction l with
  | nil => simp
  | cons a l ih =>
    have hpos := (hl a mem_cons_self).frame_pos
    have hrest := ih fun b hb => hl b (mem_cons_of_mem _ hb)
    simp only [length_cons, flatMap_cons, length_append]
    omega

/-- Whole frames are read one after the other, whatever stands behind them. -/
theorem scan_flatMap (tail : List β) (fuel : Nat) :
    R.scan (l.length + fuel) (l.flatMap frame ++ tail) =
      ⟨l ++ (R.scan fuel tail).records, (R.scan fuel tail).rest, (R.scan fuel tail).clean⟩ := by
  induction l with
  | nil => simp
  | cons a l ih =>
    have hread : R.read ((a :: l).flatMap frame ++ tail) = .record a (l.flatMap frame ++ tail) := by
      rw [flatMap_cons, append_assoc]
      exact (hl a mem_cons_self).append _
    have hfuel : (a :: l).length + fuel = l.length + fuel + 1 := by
      rw [length_cons]
      omega
    rw [hfuel, R.scan_record _ hread, ih fun b hb => hl b (mem_cons_of_mem _ hb)]
    rfl

theorem scan_flatMap_stops {tail : List β} (htail : R.Stops tail) {fuel : Nat}
    (hfuel : l.length < fuel) :
    R.scan fuel (l.flatMap frame ++ tail) = ⟨l, tail, decide (tail.length < R.header)⟩ := by
  obtain ⟨extra, rfl⟩ := Nat.exists_eq_add_of_lt hfuel
  rw [Nat.add_assoc, R.scan_flatMap l hl, R.scan_stops (Nat.succ_pos extra) htail]
  simp

end

/-! ### A file cut by a crash -/

/-- The records whose whole frame lies within the first `n` bytes. -/
def complete (frame : α → List β) : Nat → List α → List α
  | _, [] => []
  | n, a :: rest => if (frame a).length ≤ n then a :: complete frame (n - (frame a).length) rest else []

/-- The bytes behind the last complete frame within the first `n` bytes. -/
def torn (frame : α → List β) (n : Nat) (l : List α) : List β :=
  (l.flatMap frame |>.take n).drop ((complete frame n l).flatMap frame).length

theorem complete_isPrefix (n : Nat) (l : List α) : complete frame n l <+: l := by
  induction l generalizing n with
  | nil => exact prefix_rfl
  | cons a l ih =>
    rw [complete]
    split
    · exact (cons_prefix_cons).mpr ⟨rfl, ih _⟩
    · exact nil_prefix

theorem le_length_complete {m n : Nat} {l : List α} (hm : m ≤ l.length)
    (h : ((l.take m).flatMap frame).length ≤ n) :
    m ≤ (complete frame n l).length := by
  induction l generalizing m n with
  | nil => exact hm
  | cons a l ih =>
    cases m with
    | zero => exact Nat.zero_le _
    | succ m =>
      rw [take_succ_cons, flatMap_cons, length_append] at h
      have hrest := @ih m (n - (frame a).length) (by simpa using hm) (by omega)
      rw [complete, if_pos (by omega), length_cons]
      omega

variable (frame) in
/-- A cut file is its complete frames and, behind them, a proper part of one more frame. -/
theorem take_flatMap (n : Nat) (l : List α) :
    (l.flatMap frame).take n = (complete frame n l).flatMap frame ++ torn frame n l ∧
      (torn frame n l = [] ∨ ∃ a ∈ l, ∃ more, more ≠ [] ∧ frame a = torn frame n l ++ more) := by
  suffices h : ∃ tail, (l.flatMap frame).take n = (complete frame n l).flatMap frame ++ tail ∧
      (tail = [] ∨ ∃ a ∈ l, ∃ more, more ≠ [] ∧ frame a = tail ++ more) by
    obtain ⟨tail, htake, htail⟩ := h
    have htorn : torn frame n l = tail := by rw [torn, htake, drop_left]
    rw [htorn]
    exact ⟨htake, htail⟩
  induction l generalizing n with
  | nil => exact ⟨[], by simp [complete], Or.inl rfl⟩
  | cons a l ih =>
    rw [flatMap_cons, take_append, complete]
    split
    · next hle =>
      obtain ⟨tail, htake, htail⟩ := ih (n - (frame a).length)
      refine ⟨tail, ?_, ?_⟩
      · rw [take_of_length_le hle, htake, flatMap_cons, append_assoc]
      · obtain htail | ⟨b, hb, more, hmore⟩ := htail
        · exact Or.inl htail
        · exact Or.inr ⟨b, mem_cons_of_mem _ hb, more, hmore⟩
    · next hlt =>
      refine ⟨(frame a).take n, ?_, Or.inr ⟨a, mem_cons_self, (frame a).drop n, ?_, ?_⟩⟩
      · have hzero : n - (frame a).length = 0 := by omega
        simp [hzero]
      · rw [ne_eq, drop_eq_nil_iff]
        omega
      · exact (take_append_drop n (frame a)).symm

theorem Reads.stops_part (h : R.Reads frame a) {part more : List β} (hmore : more ≠ [])
    (hframe : frame a = part ++ more) : R.Stops part := by
  intro b rest hread
  have hext := R.extend part more b rest hread
  rw [← hframe, h] at hext
  injection hext with _ hnil
  exact hmore (append_eq_nil_iff.mp hnil.symm).2

theorem stops_torn (n : Nat) (l : List α) (hl : ∀ a ∈ l, R.Reads frame a) :
    R.Stops (torn frame n l) := by
  obtain hnil | ⟨a, ha, more, hmore, hframe⟩ := (take_flatMap frame n l).2
  · rw [hnil]
    exact R.stops_nil
  · exact (hl a ha).stops_part hmore hframe

end Reader
end Lib
