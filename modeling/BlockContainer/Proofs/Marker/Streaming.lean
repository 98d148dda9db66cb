import BlockContainer.Proofs.Marker.Search

/-! # Searching a text that comes in buffers

One searcher is given the buffers of a text one after the other, and behind a match the rest of
the buffer. Wherever the text is cut, the ends that it reports are those of the occurrences that
are met in the whole text, and between two calls it remembers only how much of the pattern ends
the bytes since the last match.
-/
namespace BlockContainer

/-- A search under way: how many bytes the searcher has passed, the ends it has reported, and the
buffers it is still to be given. -/
structure BufferSearch where
  searcher : Searcher
  passed : Nat
  reported : List Nat
  waiting : List Bytes

namespace BufferSearch

def start (searcher : Searcher) (buffers : List Bytes) : BufferSearch where
  searcher
  passed := 0
  reported := []
  waiting := buffers

/-- The searcher is given the next buffer. Behind a match it is given the rest of the buffer next. -/
def call (s : BufferSearch) : BufferSearch :=
  match s.waiting with
  | [] => s
  | buffer :: waiting =>
    match s.searcher.find buffer with
    | (none, searcher) => { s with searcher, passed := s.passed + buffer.length, waiting }
    | (some last, searcher) =>
      { searcher
        passed := s.passed + (last + 1)
        reported := s.reported ++ [s.passed + (last + 1)]
        waiting := buffer.drop (last + 1) :: waiting }

def after : (calls : Nat) → BufferSearch → BufferSearch
  | 0, s => s
  | calls + 1, s => after calls s.call

def since (text : Bytes) (s : BufferSearch) : Bytes :=
  (text.take s.passed).drop (s.reported.getLastD 0)

/-- What is to be seen of a search between two calls. -/
structure Tells (pattern text : Bytes) (s : BufferSearch) : Prop where
  passed_le : s.passed ≤ text.length
  waiting : s.waiting.flatten = text.drop s.passed
  reported : s.reported = occurrences pattern (text.take s.passed)
  matched : LongestEnd pattern (s.since text) (pattern.length - 1) s.searcher.matched
  matched_lt : s.searcher.matched < pattern.length

/-- The searcher has passed these bytes, up to the last reported end and since then. -/
structure Underway (pattern text front since : Bytes) (s : BufferSearch) : Prop where
  text_eq : text = front ++ since ++ s.waiting.flatten
  passed_eq : s.passed = front.length + since.length
  last_eq : s.reported.getLastD 0 = front.length
  pattern_eq : s.searcher.pattern.toList = pattern
  seen : s.searcher.Seen since
  absent : Absent pattern since
  reported : ∀ more, occurrences pattern (front ++ since ++ more) =
    s.reported ++ (occurrences pattern (since ++ more)).map (front.length + ·)

def due (s : BufferSearch) : Nat := s.waiting.flatten.length + s.waiting.length

variable {pattern text front since : Bytes} {s : BufferSearch}

theorem underway_start {searcher : Searcher} (hpattern : searcher.pattern.toList = pattern)
    (hseen : searcher.Seen []) (buffers : List Bytes) :
    Underway pattern buffers.flatten [] [] (start searcher buffers) where
  text_eq := rfl
  passed_eq := rfl
  last_eq := rfl
  pattern_eq := hpattern
  seen := hseen
  absent := absent_nil pattern
  reported := by
    intro more
    simp [start]

theorem call_of_none {searcher : Searcher} {buffer : Bytes} {waiting : List Bytes}
    (hwaiting : s.waiting = buffer :: waiting) (hfind : s.searcher.find buffer = (none, searcher)) :
    s.call = { s with searcher, passed := s.passed + buffer.length, waiting } := by
  simp only [call, hwaiting, hfind]

theorem call_of_some {searcher : Searcher} {buffer : Bytes} {waiting : List Bytes} {last : Nat}
    (hwaiting : s.waiting = buffer :: waiting)
    (hfind : s.searcher.find buffer = (some last, searcher)) :
    s.call = { searcher
               passed := s.passed + (last + 1)
               reported := s.reported ++ [s.passed + (last + 1)]
               waiting := buffer.drop (last + 1) :: waiting } := by
  simp only [call, hwaiting, hfind]

/-- A buffer without a match is passed, and its bytes are bytes since the last match. -/
theorem Underway.pass (h : Underway pattern text front since s) {searcher : Searcher}
    {buffer : Bytes} {waiting : List Bytes} (hwaiting : s.waiting = buffer :: waiting)
    (hpattern : searcher.pattern = s.searcher.pattern) (hseen : searcher.Seen (since ++ buffer))
    (habsent : Absent pattern (since ++ buffer)) :
    Underway pattern text front (since ++ buffer)
      { s with searcher, passed := s.passed + buffer.length, waiting } where
  text_eq := by
    rw [h.text_eq, hwaiting]
    simp
  passed_eq := by
    rw [h.passed_eq, List.length_append, Nat.add_assoc]
  last_eq := h.last_eq
  pattern_eq := by
    rw [hpattern]
    exact h.pattern_eq
  seen := hseen
  absent := habsent
  reported := by
    intro more
    have := h.reported (buffer ++ more)
    simpa only [List.append_assoc] using this

/-- Behind a match nothing is left of the bytes since the last one, and its end is reported. -/
theorem Underway.report (h : Underway pattern text front since s) (hne : pattern ≠ [])
    {searcher : Searcher} {found rest : Bytes} {waiting : List Bytes}
    (hwaiting : s.waiting = (found ++ rest) :: waiting)
    (hpattern : searcher.pattern = s.searcher.pattern) (hseen : searcher.Seen [])
    (hfirst : FirstEnd pattern (since ++ found) (since ++ found).length) :
    Underway pattern text (front ++ since ++ found) []
      { searcher
        passed := s.passed + found.length
        reported := s.reported ++ [s.passed + found.length]
        waiting := rest :: waiting } where
  text_eq := by
    rw [h.text_eq, hwaiting]
    simp
  passed_eq := by
    rw [h.passed_eq]
    simp [Nat.add_assoc]
  last_eq := by
    rw [h.passed_eq]
    simp [Nat.add_assoc]
  pattern_eq := by
    rw [hpattern]
    exact h.pattern_eq
  seen := hseen
  absent := absent_nil pattern
  reported := by
    intro more
    have hbehind : (since ++ found ++ more).drop (since ++ found).length = more := List.drop_left
    have hmet := occurrences_of_first hne (hfirst.append more)
    rw [hbehind] at hmet
    have hreported := h.reported (found ++ more)
    rw [← List.append_assoc since found more, hmet] at hreported
    rw [List.append_nil, List.nil_append, List.append_assoc (front ++ since), hreported, h.passed_eq]
    simp [Nat.add_assoc]

/-- A call passes the next buffer, or it reports the first end that there is. -/
theorem Underway.call (h : Underway pattern text front since s) (hne : pattern ≠ []) :
    (∃ front' since', Underway pattern text front' since' s.call) ∧ s.call.due ≤ s.due - 1 := by
  cases hwaiting : s.waiting with
  | nil =>
    have hcall : s.call = s := by simp only [BufferSearch.call, hwaiting]
    rw [hcall]
    constructor
    · exact ⟨front, since, h⟩
    · simp [due, hwaiting]
  | cons buffer waiting =>
    have habsent : Absent s.searcher.pattern.toList since := h.pattern_eq ▸ h.absent
    have hdue : s.due = buffer.length + waiting.flatten.length + (waiting.length + 1) := by
      simp [due, hwaiting]
    rcases Searcher.find_cases h.seen habsent buffer with
      ⟨searcher, hfind, hseen, hpattern, habsent'⟩ |
      ⟨last, searcher, hfind, hseen, hpattern, hlast, hfirst⟩
    · rw [call_of_none hwaiting hfind]
      constructor
      · exact ⟨front, since ++ buffer, h.pass hwaiting hpattern hseen (h.pattern_eq ▸ habsent')⟩
      · rw [hdue, due]
        simp only
        omega
    · have hsplit : s.waiting = (buffer.take (last + 1) ++ buffer.drop (last + 1)) :: waiting := by
        rw [hwaiting, List.take_append_drop]
      have hreport := h.report hne hsplit hpattern hseen (h.pattern_eq ▸ hfirst)
      rw [List.length_take_of_le hlast] at hreport
      rw [call_of_some hwaiting hfind]
      constructor
      · exact ⟨_, _, hreport⟩
      · rw [hdue, due]
        simp only [List.flatten_cons, List.length_append, List.length_cons, List.length_drop]
        omega

theorem Underway.after (h : Underway pattern text front since s) (hne : pattern ≠ [])
    (calls : Nat) :
    (∃ front' since', Underway pattern text front' since' (after calls s)) ∧
      (s.due ≤ calls → (after calls s).waiting = []) := by
  induction calls generalizing s front since with
  | zero =>
    refine ⟨⟨front, since, h⟩, fun hdue => ?_⟩
    have hnone : s.waiting.length = 0 := by
      rw [due] at hdue
      omega
    exact List.eq_nil_of_length_eq_zero hnone
  | succ calls ih =>
    obtain ⟨⟨front', since', hcall⟩, hdue⟩ := h.call hne
    obtain ⟨hafter, hdone⟩ := ih hcall
    exact ⟨hafter, fun hle => hdone (by omega)⟩

theorem Underway.tells (h : Underway pattern text front since s) (hne : pattern ≠ []) :
    Tells pattern text s := by
  have hlength : s.passed = (front ++ since).length := by rw [h.passed_eq, List.length_append]
  have hpassed : text.take s.passed = front ++ since := by rw [hlength, h.text_eq, List.take_left]
  have hsince : s.since text = since := by
    rw [BufferSearch.since, hpassed, h.last_eq, List.drop_left]
  have hsize : s.searcher.pattern.size = pattern.length := by
    rw [← h.pattern_eq, Array.length_toList]
  have hmatched := h.seen.matched
  rw [hsize, h.pattern_eq] at hmatched
  refine ⟨?_, ?_, ?_, ?_, ?_⟩
  · rw [hlength, h.text_eq]
    exact (List.prefix_append (front ++ since) _).length_le
  · rw [hlength, h.text_eq, List.drop_left]
  · have hreported := h.reported []
    rw [List.append_nil, List.append_nil, occurrences_of_absent hne h.absent] at hreported
    rw [hpassed, hreported, List.map_nil, List.append_nil]
  · rwa [hsince]
  · have hle := hmatched.le_cap
    have hpos := List.length_pos_iff.2 hne
    omega

/-- The searcher reports the ends of just those occurrences that are met from the left in the
whole text, however it was cut into buffers. After any number of calls it has reported those in
the bytes it has passed, and it remembers the longest proper prefix of the pattern that ends the
bytes since the last match. With as many calls as there are bytes and buffers it is through. -/
theorem reports_occurrences (hne : pattern ≠ []) (buffers : List Bytes) :
    ∃ searcher, Searcher.create pattern = .ok searcher ∧
      (∀ calls, Tells pattern buffers.flatten (after calls (start searcher buffers))) ∧
      ∀ calls, buffers.flatten.length + buffers.length ≤ calls →
        (after calls (start searcher buffers)).waiting = [] ∧
        (after calls (start searcher buffers)).reported = occurrences pattern buffers.flatten := by
  let searcher : Searcher :=
    { pattern := pattern.toArray, borders := .ofPattern pattern.toArray, matched := 0 }
  have hcreate : Searcher.create pattern = .ok searcher := by
    rw [Searcher.create, if_neg (by simpa using hne)]
  have hseen : searcher.Seen [] := Searcher.seen_new hne
  have hstart := underway_start rfl hseen buffers
  refine ⟨searcher, hcreate, fun calls => ?_, fun calls hcalls => ?_⟩
  · obtain ⟨⟨_, _, hafter⟩, -⟩ := hstart.after hne calls
    exact hafter.tells hne
  · obtain ⟨⟨_, _, hafter⟩, hdone⟩ := hstart.after hne calls
    have hwaiting := hdone hcalls
    have htells := hafter.tells hne
    have hend : (buffers.flatten.drop (after calls (start searcher buffers)).passed) = [] := by
      rw [← htells.waiting, hwaiting]
      rfl
    refine ⟨hwaiting, ?_⟩
    rw [htells.reported, List.take_of_length_le (List.drop_eq_nil_iff.1 hend)]

/-- Occurrences across the cuts are found, also one that begins where a match has just ended, and
those that overlap a match are not. -/
theorem reports_occurrences_aba :
    ("aba" : Bytes) ≠ [] ∧ ∃ searcher, Searcher.create "aba" = .ok searcher ∧
      (after 16 (start searcher ["ab", "", "ababab", "aaba"])).reported = [3, 7, 12] := by
  have hne : ("aba" : Bytes) ≠ [] := by decide
  obtain ⟨searcher, hcreate, -, hdone⟩ := reports_occurrences hne ["ab", "", "ababab", "aaba"]
  have hmet : occurrences "aba" (["ab", "", "ababab", "aaba"] : List Bytes).flatten = [3, 7, 12] := by
    decide
  refine ⟨hne, searcher, hcreate, ?_⟩
  rw [(hdone 16 (by decide)).2, hmet]

end BufferSearch
end BlockContainer
