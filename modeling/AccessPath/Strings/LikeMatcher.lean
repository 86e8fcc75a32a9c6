import AccessPath.Strings.Like

/-!
# LIKE by segments

For a constant pattern without `_`, `LikeMatcher` has the segments between the `%`, and looks for
them one after the other in the string.
-/

namespace AccessPath.Strings

open Library List Nat

variable {lo stop : Bool} {current pat s : List UInt8}

/-! ## Matcher -/

structure LikeMatcher where
  segments : List (List UInt8)
  hasStartPercentage : Bool
  hasEndPercentage : Bool
  some_segment : segments ≠ []

/-- The main loop of `Match`, over the segments before the last one: what is left of the string. -/
def findSegments : List (List UInt8) → List UInt8 → Option (List UInt8)
  | [], s => some s
  | segment :: segments, s =>
    match find s segment with
    | none => none
    | some nextOffset => findSegments segments (s.drop (nextOffset + segment.length))

/-- `Match` after the segment at the start. -/
def matchFrom (hasEndPercentage : Bool) (segments : List (List UInt8)) (last s : List UInt8) :
    Bool :=
  match findSegments segments s with
  | none => false
  | some s =>
    if hasEndPercentage then (find s last).isSome
    else if s.length < last.length then false
    else s.drop (s.length - last.length) == last

/-- `Match` without a `%` at the start: the first segment is compared directly. -/
def matchAtStart (hasEndPercentage : Bool) (segment : List UInt8) (segments : List (List UInt8))
    (s : List UInt8) : Bool :=
  if s.length < segment.length then false
  else if s.take segment.length != segment then false
  else
    match segments with
    | [] => hasEndPercentage || (s.drop segment.length).isEmpty
    | second :: segments =>
      matchFrom hasEndPercentage (second :: segments).dropLast
        ((second :: segments).getLast (cons_ne_nil _ _)) (s.drop segment.length)

/-- `LikeMatcher::Match` -/
def LikeMatcher.matchString (matcher : LikeMatcher) (s : List UInt8) : Bool :=
  if matcher.hasStartPercentage then
    matchFrom matcher.hasEndPercentage matcher.segments.dropLast
      (matcher.segments.getLast matcher.some_segment) s
  else
    matchAtStart matcher.hasEndPercentage (matcher.segments.head matcher.some_segment)
      matcher.segments.tail s

/-! ## Construction -/

/-- The state of the loop of `CreateLikeMatcher`: the segments that were pushed, and the part of
the pattern after the last special character. -/
structure Construction where
  segments : List (List UInt8)
  current : List UInt8
  hasStartPercentage : Bool
  hasEndPercentage : Bool

/-- Push the part after the last special character, if there is one. -/
def Construction.push (state : Construction) : List (List UInt8) :=
  if state.current ≠ [] then state.segments ++ [state.current] else state.segments

/-- The state after a `%`. -/
def Construction.percentageStep (size i : Nat) (state : Construction) : Construction where
  segments := state.push
  current := []
  hasStartPercentage := state.hasStartPercentage || i == 0
  hasEndPercentage := state.hasEndPercentage || i + 1 == size

/-- The state after a byte that is part of a segment. -/
def Construction.literalStep (ch : UInt8) (state : Construction) : Construction :=
  { state with current := state.current ++ [ch] }

/-- The loop of `CreateLikeMatcher` from a position of the pattern on. -/
def createLoop (escape : UInt8) (size i : Nat) (state : Construction) :
    List UInt8 → Option Construction
  | [] => some state
  | ch :: rest =>
    if ch = escape ∨ ch = percentage ∨ ch = underscore then
      if ch = escape ∨ ch = underscore then none
      else createLoop escape size (i + 1) (state.percentageStep size i) rest
    else createLoop escape size (i + 1) (state.literalStep ch) rest

/-- The default for the escape character is the zero byte. -/
def noEscape : UInt8 := 0

def createLikeMatcher (pattern : List UInt8) : Option LikeMatcher :=
  match createLoop noEscape pattern.length 0 ⟨[], [], false, false⟩ pattern with
  | none => none
  | some state =>
    if some_segment : state.push = [] then none
    else some ⟨state.push, state.hasStartPercentage, state.hasEndPercentage, some_segment⟩

/-! ## Matching finds all segments -/

/-- What is left of a string after the last segment. -/
def EndsWith (hasEndPercentage : Bool) (s : List UInt8) : Prop := hasEndPercentage = true ∨ s = []

theorem findSegments_eq {final : List UInt8 → Prop} (gap : AllowsGap final)
    (segs : List (List UInt8)) (s : List UInt8) :
    MatchesGaps final segs s ↔ ∃ xs ∈ findSegments segs s, final xs := by
  induction segs generalizing s with
  | nil =>
    constructor
    · intro atEnd
      exact ⟨s, rfl, atEnd⟩
    · rintro ⟨xs, mem, atEnd⟩
      cases mem
      exact atEnd
  | cons seg segs ih =>
    rw [matchesGaps_cons (.inr gap), findSegments, find_eq]
    cases firstOccurrence seg s with
    | none =>
      constructor
      · rintro ⟨k, hm, -⟩
        cases hm
      · rintro ⟨xs, mem, -⟩
        cases mem
    | some k =>
      rw [← ih]
      constructor
      · rintro ⟨_, got, xs⟩
        cases got
        exact xs
      · intro xs
        exact ⟨k, rfl, xs⟩

theorem suffix_iff_drop {last : List UInt8} :
    (if s.length < last.length then false else s.drop (s.length - last.length) == last) = true ↔
      last <:+ s := by
  rw [suffix_iff_eq_drop]
  split_ifs with hsh
  · refine iff_of_false id fun heq => ?_
    have length := congrArg List.length heq
    rw [length_drop] at length
    omega
  · rw [beq_iff_eq]
    exact eq_comm

variable (hasEndPercentage : Bool)

theorem matchesGaps_last (last s : List UInt8) : MatchesGaps (EndsWith hasEndPercentage) [last] s ↔
      (if hasEndPercentage then (find s last).isSome
        else if s.length < last.length then false
        else s.drop (s.length - last.length) == last) = true := by
  cases hasEndPercentage with
  | true =>
    rw [matchesGaps_cons (.inr fun _ _ _ => .inl rfl), if_pos rfl, find_eq,
      Option.isSome_iff_exists]
    exact exists_congr fun k => and_iff_left (.inl rfl)
  | false =>
    rw [if_neg Bool.false_ne_true, suffix_iff_drop]
    constructor
    · rintro ⟨pre, _, rfl, atEnd | rfl⟩
      · cases atEnd
      · rw [append_nil]
        exact suffix_append _ _
    · rintro ⟨pre, rfl⟩
      exact ⟨pre, [], by rw [append_nil], .inr rfl⟩

theorem matchFrom_eq_true (segs : List (List UInt8))
    (last s : List UInt8) : matchFrom hasEndPercentage segs last s = true ↔
      MatchesGaps (EndsWith hasEndPercentage) (segs ++ [last]) s := by
  have gap : AllowsGap (MatchesGaps (EndsWith hasEndPercentage) [last]) :=
    fun pre s matches' => matches'.append (.inl (cons_ne_nil _ _)) pre
  rw [matchesGaps_append, findSegments_eq gap, matchFrom]
  cases findSegments segs s with
  | none =>
    refine iff_of_false Bool.false_ne_true ?_
    rintro ⟨xs, mem, -⟩
    cases mem
  | some xs =>
    rw [← matchesGaps_last]
    constructor
    · intro atEnd
      exact ⟨xs, rfl, atEnd⟩
    · rintro ⟨_, mem, atEnd⟩
      cases mem
      exact atEnd

theorem matchAtStart_eq_true (seg : List UInt8)
    (segs : List (List UInt8)) (s : List UInt8) : matchAtStart hasEndPercentage seg segs s = true ↔
      ∃ xs, s = seg ++ xs ∧ MatchesGaps (EndsWith hasEndPercentage) segs xs := by
  unfold matchAtStart
  split_ifs with hsh ne
  · refine iff_of_false id ?_
    rintro ⟨xs, rfl, -⟩
    rw [length_append] at hsh
    omega
  · refine iff_of_false id ?_
    rintro ⟨xs, rfl, -⟩
    rw [take_left, bne_self_eq_false] at ne
    cases ne
  · have split : s = seg ++ s.drop seg.length := by
      rw [Bool.not_eq_true, bne_eq_false_iff_eq] at ne
      conv_lhs => rw [← take_append_drop seg.length s, ne]
    have eq : (∃ xs, s = seg ++ xs ∧ MatchesGaps (EndsWith hasEndPercentage) segs xs) ↔
          MatchesGaps (EndsWith hasEndPercentage) segs (s.drop seg.length) := by
      constructor
      · rintro ⟨_, rfl, matches'⟩
        rwa [drop_left]
      · intro matches'
        exact ⟨_, split, matches'⟩
    rw [eq]
    rcases segs with _ | ⟨_, _⟩
    · rw [Bool.or_eq_true, List.isEmpty_iff]
      rfl
    · rw [matchFrom_eq_true, dropLast_append_getLast]

/-- The string has all segments, the first one at the start if there is no `%` there. -/
def LikeMatcher.Accepts (matcher : LikeMatcher) (s : List UInt8) : Prop :=
  if matcher.hasStartPercentage then
    MatchesGaps (EndsWith matcher.hasEndPercentage) matcher.segments s
  else
    ∃ rest, s = matcher.segments.head matcher.some_segment ++ rest ∧
      MatchesGaps (EndsWith matcher.hasEndPercentage) matcher.segments.tail rest

theorem matchString_eq_true (matcher : LikeMatcher) (s : List UInt8) :
    matcher.matchString s = true ↔ matcher.Accepts s := by
  rw [LikeMatcher.matchString, LikeMatcher.Accepts]
  split_ifs
  · rw [matchFrom_eq_true, dropLast_append_getLast]
  · exact matchAtStart_eq_true _ _ _ _

/-! ## The matcher of a pattern -/

/-- A byte that a pattern matches as it is. -/
def IsLiteral (c : UInt8) : Prop := c ≠ underscore ∧ c ≠ percentage

theorem like_append {lit p s : List UInt8} (isLiteral : ∀ c ∈ lit, IsLiteral c) :
    Like (lit ++ p) s ↔ ∃ xs, s = lit ++ xs ∧ Like p xs := by
  induction lit generalizing s with
  | nil =>
    constructor
    · intro like
      exact ⟨s, rfl, like⟩
    · rintro ⟨xs, rfl, like⟩
      exact like
  | cons c lit ih =>
    obtain ⟨⟨notUnderscore, notPercentage⟩, isLiteral⟩ := forall_mem_cons.mp isLiteral
    rw [cons_append, like_literal notUnderscore notPercentage]
    constructor
    · rintro ⟨_, rfl, like⟩
      obtain ⟨xs, rfl, inner⟩ := (ih isLiteral).mp like
      exact ⟨xs, rfl, inner⟩
    · rintro ⟨xs, rfl, like⟩
      exact ⟨lit ++ xs, rfl, (ih isLiteral).mpr ⟨xs, rfl, like⟩⟩

theorem like_percentage_append {lit p s : List UInt8} (isLiteral : ∀ c ∈ lit, IsLiteral c) :
    Like (percentage :: (lit ++ p)) s ↔ ∃ pre aft, s = pre ++ (lit ++ aft) ∧ Like p aft := by
  rw [like_percentage]
  constructor
  · rintro ⟨gap, _, rfl, like⟩
    obtain ⟨xs, rfl, inner⟩ := (like_append isLiteral).mp like
    exact ⟨gap, xs, rfl, inner⟩
  · rintro ⟨gap, xs, rfl, like⟩
    exact ⟨gap, lit ++ xs, rfl, (like_append isLiteral).mpr ⟨xs, rfl, like⟩⟩

theorem like_percentage_percentage (p s : List UInt8) :
    Like (percentage :: percentage :: p) s ↔ Like (percentage :: p) s := by
  rw [like_percentage_dropWhile (percentage :: p), like_percentage_dropWhile p]
  rfl

theorem like_any (s : List UInt8) : Like [percentage] s :=
  like_percentage.mpr ⟨s, [], (append_nil s).symm, rfl⟩

/-- What a state of the construction, and the rest of the pattern, match. -/
def Construction.Accepts (state : Construction) (rest s : List UInt8) : Prop :=
  match state.hasStartPercentage, state.segments with
  | true, segments =>
    MatchesGaps (Like (percentage :: (state.current ++ rest))) segments s
  | false, [] => Like (state.current ++ rest) s
  | false, first :: segments =>
    ∃ after, s = first ++ after ∧
      MatchesGaps (Like (percentage :: (state.current ++ rest))) segments after

section

variable {cur xs : List UInt8} {segs : List (List UInt8)} {s : List UInt8}
variable (isLiteral : ∀ c ∈ cur, IsLiteral c)

include isLiteral

/-- The part after the last `%` is a segment once there is the next `%`. -/
theorem matchesGaps_push : MatchesGaps (Like (percentage :: (cur ++ percentage :: xs))) segs s ↔
      MatchesGaps (Like (percentage :: xs)) (if cur ≠ [] then segs ++ [cur] else segs) s := by
  split_ifs with some
  · rw [matchesGaps_append]
    exact matchesGaps_congr (fun s => like_percentage_append isLiteral) segs s
  · rw [not_not.mp some]
    exact matchesGaps_congr (fun s => like_percentage_percentage xs s) segs s

/-- The part after the last `%` is a segment at the end of the pattern. -/
theorem matchesGaps_end (stop_iff : stop = true ↔ cur = []) :
    MatchesGaps (Like (percentage :: (cur ++ []))) segs s ↔
      MatchesGaps (EndsWith stop) (if cur ≠ [] then segs ++ [cur] else segs) s := by
  split_ifs with some
  · rw [matchesGaps_append]
    refine matchesGaps_congr (fun s => ?_) segs s
    rw [like_percentage_append isLiteral]
    exact exists_congr fun _ => exists_congr fun _ => and_congr_right fun _ =>
      (or_iff_right (mt stop_iff.mp some)).symm
  · rw [not_not] at some
    rw [some]
    refine matchesGaps_congr (fun s => ?_) segs s
    exact iff_of_true (like_any s) (.inl (stop_iff.mpr some))

end

/-- A state of the construction at a position, with the rest of the pattern. -/
structure Construction.Reached (state : Construction) (i : Nat) (rest : List UInt8) : Prop where
  literal : ∀ c ∈ state.current, IsLiteral c
  atStart : i = 0 → state = ⟨[], [], false, false⟩
  started : 0 < i → state.hasStartPercentage = false → state.push ≠ []
  stop_iff : state.hasEndPercentage = true ↔ rest = [] ∧ state.current = [] ∧ 0 < i

namespace Construction

theorem reached_initial (pat : List UInt8) : Reached ⟨[], [], false, false⟩ 0 pat where
  literal := forall_mem_nil _
  atStart _ := rfl
  started pos := absurd pos (lt_irrefl 0)
  stop_iff := iff_of_false Bool.false_ne_true fun stop => absurd stop.2.2 (lt_irrefl 0)

variable {st : Construction} {i size : Nat} {ch : UInt8} {xs s : List UInt8}

theorem Reached.percentageStep (ran : st.Reached i (percentage :: xs))
    (size_eq : i + (xs.length + 1) = size) : (percentageStep size i st).Reached (i + 1) xs where
  literal := forall_mem_nil _
  atStart zero := absurd zero (succ_ne_zero i)
  started _ noStart := by
    obtain ⟨noStart, notFirst⟩ := Bool.or_eq_false_iff.mp noStart
    exact ran.started (pos_of_ne_zero (beq_eq_false_iff_ne.mp notFirst)) noStart
  stop_iff := by
    have none : st.hasEndPercentage ≠ true := fun stop => cons_ne_nil _ _ (ran.stop_iff.mp stop).1
    have last : i + 1 = size ↔ xs = [] := by
      rw [← length_eq_zero_iff]
      omega
    rw [Construction.percentageStep, Bool.or_eq_true, or_iff_right none, beq_iff_eq, last]
    exact (and_iff_left ⟨rfl, succ_pos i⟩).symm

theorem Reached.literalStep (ran : st.Reached i (ch :: xs)) (lit : IsLiteral ch) :
    (literalStep ch st).Reached (i + 1) xs where
  literal := by
    intro c mem
    rcases mem_append.mp mem with mem | mem
    · exact ran.literal c mem
    · rw [mem_singleton.mp mem]
      exact lit
  atStart zero := absurd zero (succ_ne_zero i)
  started _ _ := by
    have some : (Construction.literalStep ch st).current ≠ [] := concat_ne_nil _ _
    rw [push, if_pos some]
    exact concat_ne_nil _ _
  stop_iff := by
    have none : st.hasEndPercentage ≠ true := fun stop => cons_ne_nil _ _ (ran.stop_iff.mp stop).1
    exact iff_of_false none fun stop => absurd stop.2.1 (concat_ne_nil _ _)

theorem accepts_literalStep : (literalStep ch st).Accepts xs s ↔ st.Accepts (ch :: xs) s := by
  have eq : st.current ++ [ch] ++ xs = st.current ++ ch :: xs := by
    rw [append_assoc, singleton_append]
  rw [Accepts, Accepts, literalStep, eq]

/-- Without a pushed segment there is only the part after the last special character. -/
theorem push_first (some_segment : push ⟨[], current, lo, stop⟩ ≠ []) :
    current ≠ [] ∧ push ⟨[], current, lo, stop⟩ = [current] := by
  have some : current ≠ [] := by
    intro emp
    rw [push, emp] at some_segment
    exact some_segment rfl
  exact ⟨some, if_pos some⟩

theorem push_cons {fst : List UInt8} {segs : List (List UInt8)} :
    push ⟨fst :: segs, current, lo, stop⟩ =
      fst :: if current ≠ [] then segs ++ [current] else segs := by
  rw [apply_ite (List.cons fst)]
  rfl

theorem accepts_percentageStep (ran : st.Reached i (percentage :: xs)) :
    (percentageStep size i st).Accepts xs s ↔ st.Accepts (percentage :: xs) s := by
  rcases Nat.eq_zero_or_pos i with rfl | pos
  · rw [ran.atStart rfl]
    rfl
  · obtain ⟨segs, _, lo, _⟩ := st
    have notFirst : (i == 0) = false := beq_eq_false_iff_ne.mpr pos.ne'
    cases lo with
    | true => exact (matchesGaps_push ran.literal).symm
    | false =>
      rw [percentageStep, notFirst]
      rcases segs with _ | ⟨_, _⟩
      · obtain ⟨-, only⟩ := push_first (ran.started pos rfl)
        rw [only]
        exact (like_append ran.literal).symm
      · rw [push_cons]
        exact exists_congr fun aft => and_congr_right fun _ => (matchesGaps_push ran.literal).symm

theorem accepts_end (ran : st.Reached i []) (some_segment : st.push ≠ []) : LikeMatcher.Accepts
      ⟨st.push, st.hasStartPercentage, st.hasEndPercentage, some_segment⟩ s ↔ st.Accepts [] s := by
  have pos : 0 < i := by
    refine pos_of_ne_zero fun zero => some_segment ?_
    rw [ran.atStart zero]
    rfl
  have stop_iff : st.hasEndPercentage = true ↔ st.current = [] := by
    rw [ran.stop_iff]
    exact ⟨fun stop => stop.2.1, fun emp => ⟨rfl, emp, pos⟩⟩
  obtain ⟨segs, _, lo, _⟩ := st
  cases lo with
  | true => exact (matchesGaps_end ran.literal stop_iff).symm
  | false =>
    rcases segs with _ | ⟨_, _⟩
    · obtain ⟨some, only⟩ := push_first some_segment
      simp only [only]
      refine Iff.trans ?_ (like_append ran.literal).symm
      exact exists_congr fun aft => and_congr_right fun _ => or_iff_right (mt stop_iff.mp some)
    · simp only [push_cons]
      exact exists_congr fun aft => and_congr_right fun _ =>
        (matchesGaps_end ran.literal stop_iff).symm

end Construction

/-- What the loop builds matches what the rest of the pattern matches from its state on. -/
theorem createLoop_accepts {escape : UInt8} {size i : Nat} {st final : Construction}
    (ran : st.Reached i pat) (size_eq : i + pat.length = size)
    (created : createLoop escape size i st pat = some final) :
    final.Reached size [] ∧ (final.Accepts [] s ↔ st.Accepts pat s) := by
  induction pat generalizing i st with
  | nil =>
    cases created
    rw [← size_eq]
    exact ⟨ran, Iff.rfl⟩
  | cons ch xs ih =>
    have size_eq' : i + 1 + xs.length = size := by
      rw [← size_eq, length_cons]
      omega
    rw [createLoop] at created
    split_ifs at created with special invalid
    · obtain ⟨noEscape, noUnderscore⟩ := not_or.mp invalid
      have isPercentage : ch = percentage :=
        (special.resolve_left noEscape).resolve_right noUnderscore
      subst isPercentage
      obtain ⟨last, eq⟩ := ih (ran.percentageStep size_eq) size_eq' created
      exact ⟨last, eq.trans (Construction.accepts_percentageStep ran)⟩
    · obtain ⟨-, noPercentage, noUnderscore⟩ := not_or.mp special |>.imp_right not_or.mp
      have next := ran.literalStep ⟨noUnderscore, noPercentage⟩
      obtain ⟨last, eq⟩ := ih next size_eq' created
      exact ⟨last, eq.trans Construction.accepts_literalStep⟩

theorem createLikeMatcher_matchString {matcher : LikeMatcher}
    (created : createLikeMatcher pat = some matcher) (s : List UInt8) :
    matcher.matchString s = true ↔ Like pat s := by
  unfold createLikeMatcher at created
  cases loop : createLoop noEscape pat.length 0 ⟨[], [], false, false⟩ pat with
  | none =>
    rw [loop] at created
    cases created
  | some st =>
    rw [loop] at created
    obtain ⟨hr, eq⟩ := createLoop_accepts (Construction.reached_initial pat) (zero_add _) loop
    dsimp only at created
    split_ifs at created with some_segment
    cases created
    rw [matchString_eq_true, Construction.accepts_end hr some_segment, eq]
    rfl

end AccessPath.Strings
