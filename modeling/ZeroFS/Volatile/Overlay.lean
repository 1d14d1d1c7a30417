import Mathlib.Data.List.MinMax
import ZeroFS.Extent.SparseFile

/-!
# Bytes of the volatile overlay

A read lays the entries of its inode over the bytes of the store, or answers from the entries alone if they cover the
request (`volatile_overlay.rs`). Both give every position the byte of the last entry that covers it. No entry ends
beyond `u64::MAX`, so offsets are unbounded here.
-/

namespace ZeroFS.Volatile

open List

open SparseFile (written latest written_eq_none_iff latest_append)

/-- The offset and the data of an `OverlayEntry`. -/
abbrev OverlayEntry := Nat × List UInt8

/-- Where the entry lies in the request: the destination, the source and the length. -/
def overlap (requestOffset requestLen : Nat) (e : OverlayEntry) : Option (Nat × Nat × Nat) :=
  let start := max requestOffset e.1
  let stop := min (requestOffset + requestLen) (e.1 + e.2.length)
  if start < stop then some (start - requestOffset, start - e.1, stop - start) else none

/-- `output[at..at + src.len()].copy_from_slice(src)` -/
def copyInto (output : List UInt8) (pos : Nat) (src : List UInt8) : List UInt8 :=
  output.take pos ++ src ++ output.drop (pos + src.length)

def applyEntry (requestOffset : Nat) (output : List UInt8) (e : OverlayEntry) : List UInt8 :=
  match overlap requestOffset output.length e with
  | some (destination, source, length) => copyInto output destination ((e.2.drop source).take length)
  | none => output

/-- What one entry does to one of the uncovered intervals. -/
def coverOne (destination source length : Nat) (data : List UInt8) (st : List UInt8 × List (Nat × Nat))
    (gap : Nat × Nat) : List UInt8 × List (Nat × Nat) :=
  let copyStart := max gap.1 destination
  let copyEnd := min gap.2 (destination + length)
  if copyStart < copyEnd then
    (copyInto st.1 copyStart ((data.drop (source + (copyStart - destination))).take (copyEnd - copyStart)),
      st.2 ++ (if gap.1 < copyStart then [(gap.1, copyStart)] else []) ++ if copyEnd < gap.2 then [(copyEnd, gap.2)]
      else [])
  else (st.1, st.2 ++ [gap])

/-- The loop of `fully_covered` over the entries, the last one first. -/
def coverLoop (requestOffset requestLen : Nat) : List OverlayEntry → List UInt8 → List (Nat × Nat) → Option (List UInt8)
  | [], _, _ => none
  | e :: rest, output, uncovered =>
    match overlap requestOffset requestLen e with
    | none => coverLoop requestOffset requestLen rest output uncovered
    | some (destination, source, length) =>
      let next := uncovered.foldl (coverOne destination source length e.2) (output, [])
      if next.2.isEmpty then some next.1 else coverLoop requestOffset requestLen rest next.1 next.2

def fullyCovered (requestOffset requestLen : Nat) (entries : List OverlayEntry) : Option (List UInt8) :=
  if entries.isEmpty then none
  else coverLoop requestOffset requestLen entries.reverse (replicate requestLen 0) [(0, requestLen)]

/-! ## One entry -/

section Entries

variable {requestOffset requestLen pos i : Nat} {e : OverlayEntry} {output src : List UInt8}

theorem length_copyInto (h : pos + src.length ≤ output.length) : (copyInto output pos src).length = output.length := by
  unfold copyInto
  simp only [length_append, length_take, length_drop]
  omega

theorem getElem?_copyInto (h : pos + src.length ≤ output.length) :
    (copyInto output pos src)[i]? = if pos ≤ i ∧ i < pos + src.length then src[i - pos]? else output[i]? := by
  unfold copyInto
  rw [append_assoc]
  rcases Nat.lt_or_ge i pos with hi | hi
  · rw [getElem?_append_left (by simp; omega), getElem?_take_of_lt hi, if_neg (by omega)]
  rw [getElem?_append_right (by simp; omega), length_take, Nat.min_eq_left (by omega)]
  rcases Nat.lt_or_ge i (pos + src.length) with hi' | hi'
  · rw [getElem?_append_left (by omega), if_pos ⟨hi, hi'⟩]
  rw [getElem?_append_right (by omega), getElem?_drop, if_neg (by omega)]
  congr 1
  omega

theorem overlap_eq_none (h : overlap requestOffset requestLen e = none) (hi : i < requestLen) :
    written e (requestOffset + i) = none := by
  unfold overlap at h
  dsimp only at h
  split at h
  · cases h
  · rw [written_eq_none_iff]; omega

theorem overlap_spec {destination source length : Nat}
    (h : overlap requestOffset requestLen e = some (destination, source, length)) :
    destination + length ≤ requestLen ∧ source + length ≤ e.2.length ∧
    (∀ i, destination ≤ i → i < destination + length →
      written e (requestOffset + i) = e.2[source + (i - destination)]?) ∧
    ∀ i, i < requestLen → ¬(destination ≤ i ∧ i < destination + length) → written e (requestOffset + i) = none := by
  unfold overlap at h
  dsimp only at h
  split at h
  · cases h
    refine ⟨by omega, by omega, fun i hge hlt => ?_, fun i hi hout => ?_⟩
    · unfold written
      rw [if_pos (by omega)]
      congr 1
      omega
    · rw [written_eq_none_iff]; omega
  · cases h

theorem getElem?_applyEntry (requestOffset : Nat) (output : List UInt8) (e : OverlayEntry) (i : Nat) :
    (applyEntry requestOffset output e)[i]? = output[i]?.map fun b => (written e (requestOffset + i)).getD b := by
  unfold applyEntry
  rcases Nat.lt_or_ge i output.length with hi | hi
  · cases ho : overlap requestOffset output.length e with
    | none => rw [overlap_eq_none ho hi]; simp
    | some o =>
      obtain ⟨destination, source, length⟩ := o
      obtain ⟨hdest, hsource, hin, hout⟩ := overlap_spec ho
      have hlen : ((e.2.drop source).take length).length = length := by
        simp only [length_take, length_drop]
        omega
      rw [getElem?_copyInto (by omega), hlen]
      split
      · rename_i h
        have hget : source + (i - destination) < e.2.length := by omega
        rw [hin i h.1 h.2, getElem?_take_of_lt (by omega), getElem?_drop, getElem?_eq_getElem hget,
          getElem?_eq_getElem hi]
        rfl
      · rename_i h; rw [hout i hi h]; simp
  · rw [getElem?_eq_none hi]
    split
    · rename_i destination source length ho
      obtain ⟨hdest, -, -, -⟩ := overlap_spec ho
      rw [getElem?_eq_none]
      · rfl
      · rw [length_copyInto (by simp only [length_take, length_drop]; omega)]; exact hi
    · rw [getElem?_eq_none hi]; rfl

theorem length_applyEntries (requestOffset : Nat) (entries : List OverlayEntry) (output : List UInt8) :
    (entries.foldl (applyEntry requestOffset) output).length = output.length := by
  induction entries generalizing output with
  | nil => rfl
  | cons e rest ih =>
    rw [foldl_cons, ih]
    unfold applyEntry
    split
    · rename_i destination source length ho
      have := (overlap_spec ho).1
      exact length_copyInto (by simp only [length_take, length_drop]; omega)
    · rfl

/-- **The entries over the bytes of the store**: at each position the byte of the last entry that covers it. -/
theorem getElem?_applyEntries (requestOffset : Nat) (entries : List OverlayEntry) (output : List UInt8) (i : Nat) :
    (entries.foldl (applyEntry requestOffset) output)[i]? =
      output[i]?.map fun b => (latest entries (requestOffset + i)).getD b := by
  induction entries generalizing output with
  | nil => simp [latest]
  | cons e rest ih =>
    rw [foldl_cons, ih, getElem?_applyEntry, Option.map_map, latest]
    congr 1
    funext b
    cases latest rest (requestOffset + i) <;> rfl

end Entries

/-! ## Full coverage -/

section Coverage

variable {requestOffset requestLen : Nat} {output : List UInt8}

def InGaps (gaps : List (Nat × Nat)) (i : Nat) : Prop := ∃ gap ∈ gaps, gap.1 ≤ i ∧ i < gap.2

instance (gaps : List (Nat × Nat)) (i : Nat) : Decidable (InGaps gaps i) :=
  inferInstanceAs (Decidable (∃ gap ∈ gaps, gap.1 ≤ i ∧ i < gap.2))

variable {i destination source length : Nat} {data out : List UInt8} {entries : List OverlayEntry}

theorem inGaps_append {gaps gaps' : List (Nat × Nat)} : InGaps (gaps ++ gaps') i ↔ InGaps gaps i ∨ InGaps gaps' i := by
  constructor
  · rintro ⟨gap, hmem, hin⟩
    exact (mem_append.1 hmem).imp (fun h => ⟨gap, h, hin⟩) fun h => ⟨gap, h, hin⟩
  rintro (⟨gap, hmem, hin⟩ | ⟨gap, hmem, hin⟩)
  · exact ⟨gap, mem_append_left _ hmem, hin⟩
  · exact ⟨gap, mem_append_right _ hmem, hin⟩

theorem inGaps_singleton {gap : Nat × Nat} : InGaps [gap] i ↔ gap.1 ≤ i ∧ i < gap.2 := by
  unfold InGaps
  simp

/-- One interval: its part under the entry is copied, and the rest stays uncovered. -/
theorem coverOne_spec (hdata : source + length ≤ data.length) (hlen : destination + length ≤ output.length)
    (acc : List (Nat × Nat)) (gap : Nat × Nat) :
    (coverOne destination source length data (output, acc) gap).1.length = output.length ∧
    (∀ i, (coverOne destination source length data (output, acc) gap).1[i]? =
      if (gap.1 ≤ i ∧ i < gap.2) ∧ destination ≤ i ∧ i < destination + length then data[source + (i - destination)]?
      else output[i]?) ∧
    ∀ i, InGaps (coverOne destination source length data (output, acc) gap).2 i ↔
      InGaps acc i ∨ (gap.1 ≤ i ∧ i < gap.2) ∧ ¬(destination ≤ i ∧ i < destination + length) := by
  unfold coverOne
  dsimp only
  split
  · rename_i hlt
    have hsrc : ((data.drop (source + (max gap.1 destination - destination))).take
        (min gap.2 (destination + length) - max gap.1 destination)).length =
        min gap.2 (destination + length) - max gap.1 destination := by
      simp only [length_take, length_drop]
      omega
    refine ⟨length_copyInto (by omega), fun i => ?_, fun i => ?_⟩
    · rw [getElem?_copyInto (by omega), hsrc]
      by_cases hi : max gap.1 destination ≤ i ∧
        i < max gap.1 destination + (min gap.2 (destination + length) - max gap.1 destination)
      · rw [if_pos hi, if_pos (by omega), getElem?_take_of_lt (by omega), getElem?_drop]
        congr 1
        omega
      · rw [if_neg hi, if_neg (by omega)]
    rw [append_assoc, inGaps_append, inGaps_append]
    refine or_congr Iff.rfl ?_
    have hleft : InGaps (if gap.1 < max gap.1 destination then [(gap.1, max gap.1 destination)] else []) i ↔
        gap.1 ≤ i ∧ i < max gap.1 destination := by
      split
      · exact inGaps_singleton
      constructor
      · rintro ⟨_, hmem, -⟩; cases hmem
      · omega
    have hright : InGaps (if min gap.2 (destination + length) < gap.2 then [(min gap.2 (destination + length), gap.2)]
        else []) i ↔ min gap.2 (destination + length) ≤ i ∧ i < gap.2 := by
      split
      · exact inGaps_singleton
      constructor
      · rintro ⟨_, hmem, -⟩; cases hmem
      · omega
    rw [hleft, hright]
    omega
  · refine ⟨rfl, fun i => by rw [if_neg (by omega)], fun i => ?_⟩
    rw [inGaps_append, inGaps_singleton]
    refine or_congr Iff.rfl ?_
    omega

theorem coverAll_spec (hdata : source + length ≤ data.length) (hlen : destination + length ≤ output.length)
    (acc gaps : List (Nat × Nat)) :
    (gaps.foldl (coverOne destination source length data) (output, acc)).1.length = output.length ∧
    (∀ i, (gaps.foldl (coverOne destination source length data) (output, acc)).1[i]? =
      if InGaps gaps i ∧ destination ≤ i ∧ i < destination + length then data[source + (i - destination)]?
      else output[i]?) ∧
    ∀ i, InGaps (gaps.foldl (coverOne destination source length data) (output, acc)).2 i ↔
      InGaps acc i ∨ InGaps gaps i ∧ ¬(destination ≤ i ∧ i < destination + length) := by
  induction gaps generalizing output acc with
  | nil => refine ⟨rfl, fun i => by simp [InGaps], fun i => by simp [InGaps]⟩
  | cons gap gaps ih =>
    obtain ⟨hone, hget, hgaps⟩ := coverOne_spec hdata hlen acc gap
    have hroom : destination + length ≤ (coverOne destination source length data (output, acc) gap).1.length := by omega
    obtain ⟨hall, hget', hgaps'⟩ := ih hroom (coverOne destination source length data (output, acc) gap).2
    have hcons : ∀ i, InGaps (gap :: gaps) i ↔ (gap.1 ≤ i ∧ i < gap.2) ∨ InGaps gaps i := fun i => by
      rw [← singleton_append, inGaps_append, inGaps_singleton]
    rw [foldl_cons]
    refine ⟨by rw [← hone, ← hall], fun i => ?_, fun i => ?_⟩
    · rw [show coverOne destination source length data (output, acc) gap =
        ((coverOne destination source length data (output, acc) gap).1,
        (coverOne destination source length data (output, acc) gap).2) from rfl, hget' i, hget i]
      simp only [hcons i]
      by_cases h1 : InGaps gaps i <;> by_cases h2 : (gap.1 ≤ i ∧ i < gap.2) <;> by_cases h3 : destination ≤ i ∧
        i < destination + length <;>
        simp [h1, h2, h3]
    · rw [show coverOne destination source length data (output, acc) gap =
        ((coverOne destination source length data (output, acc) gap).1,
        (coverOne destination source length data (output, acc) gap).2) from rfl, hgaps' i, hgaps i, hcons i]
      tauto

/-- The loop, when `done` are the entries after the ones it still has. -/
theorem coverLoop_spec {done : List OverlayEntry} {uncovered : List (Nat × Nat)} (hlen : output.length = requestLen)
    (hcovered : ∀ i, i < requestLen → ¬InGaps uncovered i → ∃ b, latest done (requestOffset + i) = some b ∧
      output[i]? = some b) (hopen : ∀ i, i < requestLen → InGaps uncovered i → latest done (requestOffset + i) = none)
    (h : coverLoop requestOffset requestLen entries output uncovered = some out) :
    out.length = requestLen ∧ ∀ i, i < requestLen → ∃ b, latest (entries.reverse ++ done) (requestOffset + i) = some b ∧
    out[i]? = some b := by
  induction entries generalizing output uncovered done with
  | nil => cases h
  | cons e rest ih =>
    rw [reverse_cons, append_assoc, singleton_append]
    have hstep : ∀ i, latest (e :: done) (requestOffset + i) = (latest done (requestOffset + i)).or
      (written e (requestOffset + i)) := fun _ => rfl
    unfold coverLoop at h
    cases ho : overlap requestOffset requestLen e with
    | none =>
      rw [ho] at h
      refine ih hlen (fun i hi hin => ?_) (fun i hi hin => ?_) h
      · obtain ⟨b, hb, hout⟩ := hcovered i hi hin; exact ⟨b, by rw [hstep, hb]; rfl, hout⟩
      · rw [hstep, hopen i hi hin, overlap_eq_none ho hi]; rfl
    | some o =>
      obtain ⟨destination, source, length⟩ := o
      rw [ho] at h
      dsimp only at h
      obtain ⟨hdest, hsource, hin, hout⟩ := overlap_spec ho
      have hroom : destination + length ≤ output.length := by omega
      obtain ⟨hlen', hget, hgaps⟩ := coverAll_spec hsource hroom [] uncovered
      have hnone : ∀ i, ¬InGaps ([] : List (Nat × Nat)) i := fun i ⟨_, hmem, _⟩ => by cases hmem
      have hcovered' : ∀ i, i < requestLen →
          ¬InGaps (uncovered.foldl (coverOne destination source length e.2) (output, [])).2 i →
          ∃ b, latest (e :: done) (requestOffset + i) = some b ∧
          (uncovered.foldl (coverOne destination source length e.2) (output, [])).1[i]? = some b := by
        intro i hi hgap
        rw [hget i]
        by_cases hunc : InGaps uncovered i
        · have hrange : destination ≤ i ∧ i < destination + length := by
            by_contra hne
            exact hgap ((hgaps i).2 (.inr ⟨hunc, hne⟩))
          have hlt : source + (i - destination) < e.2.length := by omega
          refine ⟨e.2[source + (i - destination)], ?_, ?_⟩
          · rw [hstep, hopen i hi hunc, Option.none_or, hin i hrange.1 hrange.2, getElem?_eq_getElem hlt]
          · rw [if_pos ⟨hunc, hrange⟩, getElem?_eq_getElem hlt]
        · obtain ⟨b, hb, hval⟩ := hcovered i hi hunc
          exact ⟨b, by rw [hstep, hb]; rfl, by rw [if_neg fun hc => hunc hc.1]; exact hval⟩
      split at h
      · rename_i hempty
        cases h
        refine ⟨by rw [hlen', hlen], fun i hi => ?_⟩
        obtain ⟨b, hb, hval⟩ := hcovered' i hi (by rw [isEmpty_iff.1 hempty]; exact hnone i)
        refine ⟨b, ?_, hval⟩
        rw [SparseFile.latest_append, hb]
        rfl
      · refine ih (by rw [hlen', hlen]) hcovered' (fun i hi hgap => ?_) h
        rcases (hgaps i).1 hgap with hgap | ⟨hunc, hrange⟩
        · exact absurd hgap (hnone i)
        · rw [hstep, hopen i hi hunc, hout i hi hrange]; rfl

/-- **Full coverage**: the answer has at each position the byte of the last entry that covers it. -/
theorem fullyCovered_spec (h : fullyCovered requestOffset requestLen entries = some out) :
    out.length = requestLen ∧ ∀ i, i < requestLen → ∃ b, latest entries (requestOffset + i) = some b ∧
    out[i]? = some b := by
  unfold fullyCovered at h
  split at h
  · cases h
  have hcovered : ∀ i, i < requestLen → ¬InGaps [(0, requestLen)] i →
      ∃ b, latest [] (requestOffset + i) = some b ∧ (replicate requestLen (0 : UInt8))[i]? = some b :=
    fun i hi hin => absurd (inGaps_singleton.2 ⟨Nat.zero_le i, hi⟩) hin
  have := coverLoop_spec length_replicate hcovered (fun i _ _ => rfl) h
  simpa using this

end Coverage

/-! ## Merging -/

section Merge

variable {requestOffset requestLen destination source length : Nat} {data output : List UInt8}

theorem coverAll_pieces {acc gaps : List (Nat × Nat)} (hacc : ∀ gap ∈ acc, gap.1 < gap.2)
    (hgaps : ∀ gap ∈ gaps, gap.1 < gap.2) :
    ∀ gap ∈ (gaps.foldl (coverOne destination source length data) (output, acc)).2, gap.1 < gap.2 := by
  induction gaps generalizing output acc with
  | nil => exact hacc
  | cons gap gaps ih =>
    obtain ⟨hgap, hrest⟩ := forall_mem_cons.1 hgaps
    have hone : ∀ piece ∈ (coverOne destination source length data (output, acc) gap).2, piece.1 < piece.2 := by
      intro piece hp
      unfold coverOne at hp
      dsimp only at hp
      split at hp
      · simp only [mem_append] at hp
        rcases hp with (hp | hp) | hp
        · exact hacc piece hp
        · split at hp <;> simp_all
        · split at hp <;> simp_all
      · rcases mem_append.1 hp with hp | hp
        · exact hacc piece hp
        · rw [mem_singleton.1 hp]; exact hgap
    exact ih hone hrest

/-- The loop gives up only when some position is covered by no entry. -/
theorem coverLoop_eq_none {entries : List OverlayEntry} {uncovered : List (Nat × Nat)}
    (hlen : output.length = requestLen) (hne : uncovered ≠ []) (hgaps : ∀ gap ∈ uncovered, gap.1 < gap.2)
    (hin : ∀ i, InGaps uncovered i → i < requestLen)
    (h : coverLoop requestOffset requestLen entries output uncovered = none) :
    ∃ i, InGaps uncovered i ∧ ∀ e ∈ entries, written e (requestOffset + i) = none := by
  induction entries generalizing output uncovered with
  | nil =>
    obtain ⟨gap, rest, rfl⟩ := exists_cons_of_ne_nil hne
    exact ⟨gap.1, ⟨gap, mem_cons_self, le_rfl, hgaps gap mem_cons_self⟩, nofun⟩
  | cons e rest ih =>
    unfold coverLoop at h
    cases ho : overlap requestOffset requestLen e with
    | none =>
      rw [ho] at h
      obtain ⟨i, hi, hrest⟩ := ih hlen hne hgaps hin h
      exact ⟨i, hi, forall_mem_cons.2 ⟨overlap_eq_none ho (hin i hi), hrest⟩⟩
    | some o =>
      obtain ⟨destination, source, length⟩ := o
      rw [ho] at h
      obtain ⟨hdest, hsource, -, hout⟩ := overlap_spec ho
      obtain ⟨hlen', -, hleft⟩ := coverAll_spec hsource (by omega : destination + length ≤ output.length) [] uncovered
      have hsub : ∀ i, InGaps (uncovered.foldl (coverOne destination source length e.2) (output, [])).2 i →
          InGaps uncovered i ∧ ¬(destination ≤ i ∧ i < destination + length) :=
        fun i hi => ((hleft i).1 hi).resolve_left fun ⟨_, hmem, _⟩ => not_mem_nil hmem
      dsimp only at h
      split at h
      · cases h
      rename_i hmore
      obtain ⟨i, hi, hrest⟩ := ih (by rw [hlen', hlen]) (fun hnil => hmore (isEmpty_iff.2 hnil))
        (coverAll_pieces nofun hgaps)
        (fun i hi => hin i (hsub i hi).1) h
      obtain ⟨hold, hrange⟩ := hsub i hi
      exact ⟨i, hold, forall_mem_cons.2 ⟨hout i (hin i hold) hrange, hrest⟩⟩

/-- Published entries with their sequence numbers, as `snapshot` lists them. -/
structure Snapshot where
  entries : List (Nat × OverlayEntry)
  ascending : entries.Pairwise fun e e' => e.1 < e'.1

/-- The byte of the entry with the highest sequence number among those that cover the position. -/
def Snapshot.highest (s : Snapshot) (pos : Nat) : Option UInt8 :=
  ((s.entries.filter fun e => (written e.2 pos).isSome).argmax Prod.fst).bind fun e => written e.2 pos

/-- What a read over `base` is to see. -/
def Snapshot.reference (s : Snapshot) (requestOffset : Nat) (base : List UInt8) : List UInt8 :=
  base.mapIdx fun i b => (s.highest (requestOffset + i)).getD b

theorem highest_eq_latest (s : Snapshot) (pos : Nat) : s.highest pos = latest (s.entries.map Prod.snd) pos := by
  obtain ⟨entries, hasc⟩ := s
  induction entries using reverseRecOn with
  | nil => rfl
  | append_singleton entries e ih =>
    obtain ⟨hasc, -, hlt⟩ := pairwise_append.1 hasc
    replace ih := ih hasc
    unfold Snapshot.highest at ih ⊢
    rw [map_append, latest_append, ← ih, filter_append]
    cases hw : written e.2 pos with
    | none => simp [latest, hw]
    | some b =>
      have hlast : (([e] : List (Nat × OverlayEntry)).filter fun e => (written e.2 pos).isSome) = [e] := by simp [hw]
      rw [hlast, argmax_concat]
      cases hmax : (entries.filter fun e => (written e.2 pos).isSome).argmax Prod.fst with
      | none => simp [latest, hw]
      | some e' =>
        have hmem := (mem_filter.1 (argmax_mem hmax)).1
        simp [latest, hw, hlt e' hmem e mem_cons_self]

theorem getElem?_reference (s : Snapshot) (requestOffset : Nat) (base : List UInt8) (i : Nat) :
    (s.reference requestOffset base)[i]? = base[i]?.map
      fun b => (latest (s.entries.map Prod.snd) (requestOffset + i)).getD b := by
  simp [Snapshot.reference, highest_eq_latest]

/-- A position has a latest byte exactly if some entry covers it. -/
theorem latest_eq_none {entries : List OverlayEntry} {pos : Nat} :
    latest entries pos = none ↔ ∀ e ∈ entries, written e pos = none := by
  induction entries with
  | nil => simp [latest]
  | cons e rest ih => simp [latest, ih, and_comm]

/-- **Merging equals sequential application.** Both ways of answering a read give every byte the value of the highest
entry that covers it, else that of the base; and a request of at least one byte is answered from the entries alone
exactly if they cover all of it. -/
theorem overlay_merge (s : Snapshot) (requestOffset : Nat) (base : List UInt8) :
    (s.entries.map Prod.snd).foldl (applyEntry requestOffset) base = s.reference requestOffset base ∧
    (∀ out, fullyCovered requestOffset base.length (s.entries.map Prod.snd) = some out →
      out = s.reference requestOffset base) ∧
    (base ≠ [] → ((fullyCovered requestOffset base.length (s.entries.map Prod.snd)).isSome ↔
      ∀ i < base.length, ∃ e ∈ s.entries, (written e.2 (requestOffset + i)).isSome)) := by
  refine ⟨?_, fun out h => ?_, fun hne => ⟨fun h i hi => ?_, fun h => ?_⟩⟩
  · apply ext_getElem?; intro i; rw [getElem?_applyEntries, getElem?_reference]
  · obtain ⟨hlen, hbytes⟩ := fullyCovered_spec h
    apply ext_getElem?
    intro i
    rw [getElem?_reference]
    rcases Nat.lt_or_ge i base.length with hi | hi
    · obtain ⟨b, hb, hout⟩ := hbytes i hi; rw [hout, hb, getElem?_eq_getElem hi]; rfl
    · rw [getElem?_eq_none hi, getElem?_eq_none (by omega)]; rfl
  · obtain ⟨out, hout⟩ := Option.isSome_iff_exists.1 h
    obtain ⟨b, hb, -⟩ := (fullyCovered_spec hout).2 i hi
    by_contra hno
    have hnone : latest (s.entries.map Prod.snd) (requestOffset + i) = none := by
      rw [latest_eq_none]
      intro e he
      obtain ⟨p, hp, rfl⟩ := mem_map.1 he
      exact Option.not_isSome_iff_eq_none.1 fun hc => hno ⟨p, hp, hc⟩
    cases hnone.symm.trans hb
  · by_contra hno
    have hpos := length_pos_iff.2 hne
    have hloop := Option.not_isSome_iff_eq_none.1 hno
    unfold fullyCovered at hloop
    split at hloop
    · rename_i hempty
      obtain ⟨e, he, -⟩ := h 0 hpos
      rw [map_eq_nil_iff.1 (isEmpty_iff.1 hempty)] at he
      cases he
    · have hgap : ∀ gap ∈ [(0, base.length)], gap.1 < gap.2 := by simpa using hpos
      obtain ⟨i, hi, hall⟩ := coverLoop_eq_none length_replicate (cons_ne_nil _ _) hgap
        (fun i hi => (inGaps_singleton.1 hi).2) hloop
      obtain ⟨e, he, hc⟩ := h i (inGaps_singleton.1 hi).2
      rw [hall e.2 (by simpa using ⟨e.1, he⟩)] at hc
      cases hc

/-- A request for no bytes is never answered from the entries. -/
theorem fullyCovered_no_bytes :
    ¬((fullyCovered 0 0 [(0, [1])]).isSome ↔ ∀ i < 0, ∃ e ∈ [(0, [1])], (written e (0 + i)).isSome) := by
  decide

end Merge

end ZeroFS.Volatile
