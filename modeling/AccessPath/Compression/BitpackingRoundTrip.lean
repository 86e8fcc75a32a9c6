import AccessPath.Compression.BitpackingScan
import AccessPath.Compression.Rle

/-!
# Round trip of bitpacked columns

The calls that read a segment get the rows of its groups, and those are the
values that the groups were made from, except where there was no value.
-/

namespace AccessPath

open Library List Option

variable {t : IntegerType}

/-- The calls that are made to a segment with `count` rows: some rows are
scanned, or rows are skipped to reach one that is still in the segment. -/
def AllowedCalls (count : Nat) : Nat → List ReadCall → Prop
  | _, [] => True
  | position, .scan n :: calls =>
    0 < n ∧ position + n ≤ count ∧ AllowedCalls count (position + n) calls
  | position, .skip n :: calls =>
    position + n < count ∧ AllowedCalls count (position + n) calls

def ReadCall.count : ReadCall → Nat
  | .scan n => n
  | .skip n => n

/-- How many rows some calls move on. -/
def callRows (calls : List ReadCall) : Nat := (calls.map ReadCall.count).sum

/-- The rows that calls get; those that are left out are not known. -/
def served : List ReadCall → List t.Value → List (Option t.Value)
  | [], _ => []
  | .scan n :: calls, rows => (rows.take n).map some ++ served calls (rows.drop n)
  | .skip n :: calls, rows => replicate n none ++ served calls (rows.drop n)

/-- What was read is the value wherever there is one. -/
def Agrees (read values : List (Option t.Value)) : Prop :=
  List.Forall₂ (fun x value => ∀ r ∈ x, ∀ v ∈ value, r = v) read values

/-- All calls to a segment get its values. -/
structure ReadsBack (kernels : PackKernels t) (segment : BitpackingSegment)
    (values : List (Option t.Value)) : Prop where
  count : segment.count = values.length
  read : ∀ calls, AllowedCalls segment.count 0 calls → ∃ out,
    segment.read kernels calls = some out ∧ Agrees out (values.take (callRows calls))

section

variable {ks : PackKernels t} {tmp : Nat → t.Value} {b : Bytes}
  {gs : List (BitpackingGroup t)} {top : Nat} {s : BitpackingScanState t}

theorem agrees_of_restores {rows : List t.Value} {vs : List (Option t.Value)}
    (restores : Restores rows vs) : Agrees (rows.map some) vs := by
  apply forall₂_map_left_iff.mpr
  apply List.Forall₂.imp _ restores
  intro x v same r got
  cases got
  exact same

theorem agrees_unknown (vs : List (Option t.Value)) : Agrees (replicate vs.length none) vs := by
  induction vs with
  | nil => exact .nil
  | cons v vs ih => exact .cons nofun ih

theorem take_callRows_cons (call : ReadCall) (calls : List ReadCall) (vs : List (Option t.Value)) :
    vs.take (callRows (call :: calls)) =
      vs.take call.count ++ (vs.drop call.count).take (callRows calls) := by
  rw [callRows, map_cons, sum_cons, take_add]
  rfl

variable {calls : List ReadCall}

theorem Readable.run (read : Readable ks tmp b gs top) {r : Nat} (ok : StandsAt ks tmp b gs top r s)
    (allowed : AllowedCalls (groupRows gs).flatten.length r calls) :
    s.run ks b calls = some (served calls ((groupRows gs).flatten.drop r)) := by
  induction calls generalizing s r with
  | nil => rfl
  | cons call calls ih =>
    cases call with
    | scan n =>
      obtain ⟨-, fit, hl⟩ := allowed
      obtain ⟨s', scanned, pos'⟩ := read.scanPartial le_rfl ok fit
      rw [BitpackingScanState.run, scanned, bind_eq_bind, bind_some]
      dsimp only
      rw [ih pos' hl, served, drop_drop]
      rfl
    | skip n =>
      obtain ⟨fit, hl⟩ := allowed
      obtain ⟨_, skipped, pos', -⟩ := read.skip ok fit
      rw [BitpackingScanState.run, skipped, bind_eq_bind, bind_some, ih pos' hl, served,
        drop_drop]
      rfl

theorem agrees_served {rows : List t.Value} {vs : List (Option t.Value)}
    (restores : Restores rows vs) {r : Nat} (allowed : AllowedCalls (r + vs.length) r calls) :
    Agrees (served calls rows) (vs.take (callRows calls)) := by
  induction calls generalizing rows vs r with
  | nil => exact .nil
  | cons call calls ih =>
    have rest {n : Nat} (le : n ≤ vs.length) (late : AllowedCalls (r + vs.length) (r + n) calls) :
        Agrees (served calls (rows.drop n)) ((vs.drop n).take (callRows calls)) := by
      apply ih (forall₂_drop n restores)
      rwa [length_drop, Nat.add_assoc, Nat.add_sub_cancel' le]
    rw [take_callRows_cons]
    cases call with
    | scan n =>
      obtain ⟨-, le, late⟩ := allowed
      exact rel_append (agrees_of_restores (forall₂_take n restores)) (rest (by omega) late)
    | skip n =>
      obtain ⟨_, late⟩ := allowed
      have unknown := agrees_unknown (vs.take n)
      rw [length_take_of_le (by omega)] at unknown
      exact rel_append unknown (rest (by omega) late)

theorem Readable.init (read : Readable ks tmp b gs top) (ne : 0 < (groupRows gs).flatten.length) :
    ∃ s, BitpackingScanState.init b = some s ∧ StandsAt ks tmp b gs top 0 s := by
  obtain ⟨grp, got⟩ := read.group_of_row ne
  rw [Nat.zero_div] at got
  obtain ⟨s, hld, start, pos⟩ := @Laid.loadNextGroup t ks tmp b gs top 0
    grp ⟨.invalid, 0, 0, 0, 0, 0, 0, top - encodedMetadataSize⟩ read.laid got
    (read.width grp (mem_of_getElem? got)) rfl
  refine ⟨s, ?_, 0, grp, pos, by rw [start, Nat.mul_zero]⟩
  rw [BitpackingScanState.init, read.laid.header]
  exact hld

theorem BitpackingGroup.Encodes.restores {grp : BitpackingGroup t} {ck : List (Option t.Value)}
    (encodes : grp.Encodes ck) : Restores (grp.rows 0 grp.count) ck := by
  apply forall₂_iff_get.mpr
  constructor
  · rw [BitpackingGroup.length_rows, encodes.count_eq]
  · intro i fit fit' v got
    have here : ck[i]? = some (some v) := by
      rw [getElem?_eq_getElem fit']
      exact congrArg some got
    have r : (grp.rows 0 grp.count).get ⟨i, fit⟩ = grp.data.value i := by
      simp [BitpackingGroup.rows]
    rw [r, encodes.value_eq i v here]

variable {chunks : List (List (Option t.Value))}

section

variable (encodes : List.Forall₂ BitpackingGroup.Encodes gs chunks)
include encodes

theorem restores_groupRows : Restores (groupRows gs).flatten chunks.flatten := by
  induction encodes with
  | nil => exact .nil
  | cons fst _ ih => exact rel_append fst.restores ih

theorem lengths_groupRows : (groupRows gs).map List.length = chunks.map List.length := by
  induction encodes with
  | nil => rfl
  | cons fst _ ih =>
    rw [groupRows, map_cons, map_cons, map_cons, BitpackingGroup.length_rows, fst.count_eq]
    exact congrArg _ ih

theorem counts_eq : (gs.map BitpackingGroup.count).sum = chunks.flatten.length := by
  induction encodes with
  | nil => rfl
  | cons fst _ ih =>
    rw [map_cons, sum_cons, flatten_cons, length_append, ih, fst.count_eq]

theorem width_of_encodes : ∀ grp ∈ gs, grp.data.WidthFits := by
  induction encodes with
  | nil => exact nofun
  | cons fst _ ih => exact forall_mem_cons.mpr ⟨fst.width, ih⟩

theorem small_of_encodes (hp : Packed metadataGroupSize chunks) : ∀ grp ∈ gs, grp.Small := by
  induction encodes with
  | nil => exact nofun
  | cons fst _ ih =>
    refine forall_mem_cons.mpr ⟨⟨?_, fst.width⟩, ih hp.tail⟩
    rw [fst.count_eq]
    exact (hp.head_pos metadataGroupSize_pos).2

end

section

variable {seg : BitpackingSegment} (flushed : Flushed ks tmp seg gs)
  (encodes : List.Forall₂ BitpackingGroup.Encodes gs chunks)
  (hp : Packed metadataGroupSize chunks)
include flushed encodes hp

theorem Flushed.readable : seg.count = (groupRows gs).flatten.length ∧
    ∃ top, Readable ks tmp seg.block gs top := by
  obtain ⟨n, top, laid⟩ := flushed.laid
  rw [counts_eq encodes, ← List.Forall₂.length_eq (restores_groupRows encodes)] at n
  exact ⟨n, top, laid, hp.of_lengths (lengths_groupRows encodes), width_of_encodes encodes⟩

theorem Flushed.read_eq (allowed : AllowedCalls seg.count 0 calls) :
    seg.read ks calls = some (served calls (groupRows gs).flatten) := by
  obtain ⟨k, _, hrd⟩ := flushed.readable encodes hp
  unfold BitpackingSegment.read
  rw [k] at allowed
  cases calls with
  | nil => rfl
  | cons call calls =>
    have ne : 0 < (groupRows gs).flatten.length := by
      cases call with
      | scan n =>
        obtain ⟨_, _, -⟩ := allowed
        omega
      | skip n => exact Nat.zero_lt_of_lt allowed.1
    obtain ⟨_, started, pos⟩ := hrd.init ne
    rw [started]
    exact hrd.run pos allowed

/-- A flushed segment gives back the values that its groups were made from. -/
theorem Flushed.readsBack : ReadsBack ks seg chunks.flatten := by
  have restores := restores_groupRows encodes
  have n : seg.count = chunks.flatten.length :=
    (flushed.readable encodes hp).1.trans (List.Forall₂.length_eq restores)
  refine ⟨n, fun calls allowed => ⟨_, flushed.read_eq encodes hp allowed, ?_⟩⟩
  rw [n, ← Nat.zero_add chunks.flatten.length] at allowed
  exact agrees_served restores allowed

end

theorem readsBack_parts {segs : List BitpackingSegment} {ps : List (List (BitpackingGroup t))}
    (done : List.Forall₂ (Flushed ks tmp) segs ps)
    (encodes : List.Forall₂ BitpackingGroup.Encodes ps.flatten chunks)
    (hp : Packed metadataGroupSize chunks) : ∃ pieces, pieces.flatten = chunks.flatten ∧
      List.Forall₂ (ReadsBack ks) segs pieces := by
  induction done generalizing chunks with
  | nil =>
    cases encodes
    exact ⟨[], rfl, .nil⟩
  | @cons seg gs segs ps fst _ ih =>
    rw [flatten_cons] at encodes
    have front := forall₂_take_append _ _ _ encodes.flip
    have back := forall₂_drop_append _ _ _ encodes.flip
    have full := take_append_drop gs.length chunks
    rw [← full] at hp
    obtain ⟨pieces, same, reads⟩ := ih back.flip hp.append_right
    refine ⟨(chunks.take gs.length).flatten :: pieces, ?_, .cons ?_ reads⟩
    · rw [flatten_cons, same, ← flatten_append, full]
    · exact fst.readsBack front.flip (hp.append_left metadataGroupSize_pos)

end

/-- Data that the analysis accepts comes back from its segments. -/
theorem bitpackingCompress_readsBack (kernels : PackKernels t) (temporary : Nat → t.Value)
    (mode : BitpackingMode) (buffer : Nat → t.Value) (values : List (Option t.Value))
    (accepted : (BitpackingState.new mode buffer).analyze values = true) :
    ∃ segments pieces, bitpackingCompress kernels temporary mode buffer values = some segments ∧
      pieces.flatten = values ∧ List.Forall₂ (ReadsBack kernels) segments pieces := by
  obtain ⟨_, all, packed, encodes⟩ :=
    (show (BitpackingState.new mode buffer).Holds [] from BitpackingState.holds_reset _).written
      metadataGroupSize_pos
  obtain ⟨segments, _, compressed, flushed, groups⟩ :=
    @compress_parts t kernels temporary _ (small_of_encodes encodes packed)
  rw [← groups] at encodes
  obtain ⟨pieces, same, reads⟩ := readsBack_parts flushed encodes packed
  refine ⟨segments, pieces, ?_, same.trans (all accepted), reads⟩
  rw [bitpackingCompress_eq, compressed]

/-- Two values with a NULL between them. -/
theorem bitpackingCompress_readsBack_three :
    ∃ segments pieces, bitpackingCompress (PackKernels.bitwise int8) (fun _ => 0) .auto
        (fun _ => 0) [some 7, none, some 9] = some segments ∧
      pieces.flatten = [some 7, none, some 9] ∧
      List.Forall₂ (ReadsBack (PackKernels.bitwise int8)) segments pieces :=
  bitpackingCompress_readsBack (PackKernels.bitwise int8) (fun _ => 0) .auto (fun _ => 0)
    [some 7, none, some 9] (by decide)

theorem sum_counts_eq {ks : PackKernels t} {segs : List BitpackingSegment}
    {pieces : List (List (Option t.Value))} (reads : List.Forall₂ (ReadsBack ks) segs pieces) :
    (segs.map BitpackingSegment.count).sum = pieces.flatten.length := by
  induction reads with
  | nil => rfl
  | cons fst _ ih =>
    rw [map_cons, sum_cons, flatten_cons, length_append, ih, fst.count]

/-- The smallest and the largest value of a type are too far apart for a group,
and then the group is lost. The analysis refuses such data. -/
theorem bitpackingCompress_drops_extremes :
    ¬ ∃ segments pieces, bitpackingCompress (PackKernels.bitwise int8) (fun _ => 0) .auto
        (fun _ => 0) [some (-128), some 127, none] = some segments ∧
      pieces.flatten = [some (-128), some 127, none] ∧
      List.Forall₂ (ReadsBack (PackKernels.bitwise int8)) segments pieces := by
  rintro ⟨_, _, compressed, all, reads⟩
  have counts : (bitpackingCompress (PackKernels.bitwise int8) (fun _ => 0) .auto
      (fun _ => 0) [some (-128), some 127, none]).map (List.map BitpackingSegment.count) =
        some [0] := by decide
  rw [compressed, map_some, Option.some.injEq] at counts
  have total := sum_counts_eq reads
  rw [counts, all] at total
  exact absurd total (by decide)

end AccessPath
