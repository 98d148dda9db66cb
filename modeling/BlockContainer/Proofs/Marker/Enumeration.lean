import BlockContainer.Proofs.Marker.Scan

/-! # Scans pass from marker to marker

A scan moves a stream behind the next marker, or to its end if there is none, and the chunks
that it reads make no difference. Scans one behind the other stop behind the occurrences of the
marker one by one, and then at the end.
-/
namespace BlockContainer.SyncMarker

open InputStream

variable {m : SyncMarker} {kind : StreamKind} {content : Bytes} {origin : Nat} {s : InputStream}

/-- Where scans stop that go these distances one behind the other. -/
def stops : (origin : Nat) → List Nat → List Nat
  | _, [] => []
  | origin, count :: counts => (origin + count) :: stops (origin + count) counts

/-- The ends of the markers that are met from the origin on, and behind the last the end of the
content. -/
def stop (m : SyncMarker) (content : Bytes) (origin scan : Nat) : Nat :=
  ((occurrences m.bytes (content.drop origin)).map (origin + ·)).getD scan
    (max origin content.length)

theorem peek?_of_near (h : Near kind content origin s) : s.peek? = content[origin]? := by
  rw [InputStream.peek?, h.available, List.head?_drop]

/-- The first scan stops at the first marker, and the later ones go on from there. -/
theorem stop_of_scanEnd {e : Nat} (h : ScanEnd m.bytes (content.drop origin) e) :
    m.stop content origin 0 = origin + e ∧
      ∀ scan, m.stop content origin (scan + 1) = m.stop content (origin + e) scan := by
  have hle := h.le_length
  rw [List.length_drop] at hle
  rcases h with hfirst | ⟨hend, hnone⟩
  · have hmet := occurrences_of_first m.bytes_ne_nil hfirst
    have hpos := hfirst.pos m.bytes_ne_nil
    have hmax : max origin content.length = max (origin + e) content.length := by omega
    rw [List.drop_drop] at hmet
    constructor
    · rw [stop, hmet]
      rfl
    · intro scan
      have hshift : (fun i => origin + i) ∘ (fun i => e + i) = fun i => origin + e + i := by
        funext i
        exact (Nat.add_assoc origin e i).symm
      rw [stop, stop, hmet, hmax, List.map_cons, List.map_map, hshift]
      rfl
  · have hmet : occurrences m.bytes (content.drop origin) = [] :=
      occurrences_of_absent m.bytes_ne_nil fun i hi => hnone i (hend ▸ hi)
    have hrest : content.drop (origin + e) = [] := by
      rw [← List.drop_drop, hend, List.drop_length]
    have hagain : occurrences m.bytes [] = [] :=
      occurrences_of_absent m.bytes_ne_nil (absent_nil m.bytes)
    rw [List.length_drop] at hend
    have hmax : max origin content.length = origin + e := by omega
    constructor
    · rw [stop, hmet, hmax]
      rfl
    · intro scan
      rw [stop, stop, hmet, hrest, hagain, hmax]
      change origin + e = max (origin + e) content.length
      omega

/-- Scans one behind the other succeed and stop where they should. -/
theorem scans_cases (hseek : s.Seekable) (hs : Near kind content origin s) {chunkSizes : List Nat}
    (hchunks : ∀ n ∈ chunkSizes, 0 < n) :
    ∃ counts s', chunkSizes.mapM m.advancePast s = .ok counts s' ∧
      stops origin counts = (List.range chunkSizes.length).map (m.stop content origin) ∧
      Near kind content ((stops origin counts).getLastD origin) s' := by
  induction chunkSizes generalizing origin s with
  | nil => exact ⟨[], s, rfl, rfl, hs⟩
  | cons chunkSize chunkSizes ih =>
    obtain ⟨e, s₁, hrun, hs₁, hend⟩ :=
      m.advancePast_cases (hchunks chunkSize List.mem_cons_self) hseek hs
    obtain ⟨counts, s', hruns, hstops, hs'⟩ := ih (hs.seekable hs₁ hseek) hs₁
      fun n hn => hchunks n (List.mem_cons_of_mem _ hn)
    obtain ⟨hfirst, hlater⟩ := stop_of_scanEnd hend
    refine ⟨e :: counts, s', ?_, ?_, ?_⟩
    · rw [List.mapM_cons, Runs.bind_of_ok hrun, Runs.bind_of_ok hruns]
      rfl
    · rw [stops, hstops, List.length_cons, List.range_succ_eq_map, List.map_cons, hfirst,
        List.map_map]
      congr 2
      funext scan
      exact (hlater scan).symm
    · rw [stops, List.getLastD_cons]
      exact hs'

/-- A scan stops behind the marker that ends first of all that begin at the origin or behind it,
or at the end of the content if there is none, and what is read next stands there. The size of its
chunks makes no difference. Scans one behind the other, each with chunks of its own size, stop
behind the occurrences of the marker in turn and then at the end. -/
theorem scans_stop_behind_markers (m : SyncMarker) (hat : At kind content origin s)
    (hseek : s.Seekable) :
    (∃ count, (IsLeast (m.endsFrom content (origin + 16)) (origin + count) ∨
          m.endsFrom content (origin + 16) = ∅ ∧ count = content.length - origin) ∧
        ∀ chunkSize, 0 < chunkSize → ∃ s', m.advancePast chunkSize s = .ok count s' ∧
          s'.peek? = content[origin + count]? ∧ s'.available = content.drop (origin + count)) ∧
      ∀ chunkSizes : List Nat, (∀ n ∈ chunkSizes, 0 < n) →
        ∃ counts s', chunkSizes.mapM m.advancePast s = .ok counts s' ∧
          stops origin counts = (List.range chunkSizes.length).map (m.stop content origin) ∧
          s'.available = content.drop ((stops origin counts).getLastD origin) := by
  constructor
  · have hscan {chunkSize : Nat} (hchunk : 0 < chunkSize) :=
      m.advancePast_cases hchunk hseek (.of_at hat)
    obtain ⟨count, -, -, -, hend⟩ := hscan Nat.one_pos
    have hbehind : ScanEnd m.bytes (content.drop (origin + 16 - 16)) count := by
      rwa [Nat.add_sub_cancel]
    have hleast := least_or_none hbehind
    rw [Nat.add_sub_cancel, List.length_drop] at hleast
    refine ⟨count, hleast, fun chunkSize hchunk => ?_⟩
    obtain ⟨count', s', hrun, hs', hend'⟩ := hscan hchunk
    obtain rfl := hend'.unique m.bytes_ne_nil hend
    exact ⟨s', hrun, peek?_of_near hs', hs'.available⟩
  · intro chunkSizes hchunks
    obtain ⟨counts, s', hrun, hstops, hs'⟩ := scans_cases (m := m) hseek (.of_at hat) hchunks
    exact ⟨counts, s', hrun, hstops, hs'.available⟩

def zeros : Bytes := List.replicate 20 0 ++ [0x78] ++ List.replicate 17 0

/-- A marker of zeros overlaps itself. From the fourth zero on it is found twice. The occurrence
that ends with the last zero overlaps the second one and is passed over. -/
theorem scans_stop_behind_zeros :
    At .memory zeros 4 ((ofBytes .memory zeros).seek 4) ∧
      ((ofBytes .memory zeros).seek 4).Seekable ∧
      (∃ s', zero.advancePast 7 ((ofBytes .memory zeros).seek 4) = .ok 16 s' ∧
        s'.peek? = some 0x78) ∧
      ∃ counts s', [7, 1, 30, 5].mapM zero.advancePast ((ofBytes .memory zeros).seek 4) =
        .ok counts s' ∧ stops 4 counts = [20, 37, 38, 38] := by
  have hat : At .memory zeros 4 ((ofBytes .memory zeros).seek 4) :=
    (At.ofBytes .memory zeros).seek (by decide)
  have hseek : ((ofBytes .memory zeros).seek 4).Seekable := by
    intro offset hoffset
    rw [hat.content_eq] at hoffset
    rw [canSeek, hat.kind_eq, hat.content_eq]
    exact decide_eq_true hoffset
  have hfirst : IsLeast (zero.endsFrom zeros 20) 20 :=
    isLeast_endsFrom (e := 16) ⟨by decide, by decide, by decide⟩
  obtain ⟨⟨count, hcount, hscan⟩, hscans⟩ := scans_stop_behind_markers zero hat hseek
  refine ⟨hat, hseek, ?_, ?_⟩
  · obtain ⟨s', hrun, hpeek, -⟩ := hscan 7 (by decide)
    rcases hcount with hleast | ⟨hnone, -⟩
    · have hstop : 4 + count = 20 := hleast.unique hfirst
      obtain rfl : count = 16 := by omega
      exact ⟨s', hrun, hpeek⟩
    · have hmem := hfirst.1
      rw [hnone] at hmem
      exact absurd hmem (Set.notMem_empty 20)
  · obtain ⟨counts, s', hrun, hstops, -⟩ := hscans [7, 1, 30, 5] (by decide)
    exact ⟨counts, s', hrun, hstops.trans (by decide)⟩

end BlockContainer.SyncMarker
