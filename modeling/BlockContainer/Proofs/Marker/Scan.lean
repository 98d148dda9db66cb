import Mathlib.Order.Bounds.Basic
import BlockContainer.Marker.Scan
import BlockContainer.Proofs.Marker.Occurrences
import BlockContainer.Proofs.Marker.Search
import BlockContainer.Proofs.Stream.Position

/-! # Scanning finds the next marker

Whatever the size of the chunks, a scan leaves the stream behind the first marker that
stands at or after the offset where it began, or at the end of the content. A scan that
begins sixteen bytes before an offset finds the first marker that ends from the offset on.
-/
namespace BlockContainer

namespace InputStream

def Seekable (s : InputStream) : Prop := ∀ offset ≤ s.content.length, s.canSeek offset = true

variable {kind : StreamKind} {content : Bytes} {offset : Nat} {s : InputStream}

theorem Near.seekable {s' : InputStream} {offset' : Nat} (h : Near kind content offset s)
    (h' : Near kind content offset' s') (hseek : s.Seekable) : s'.Seekable := by
  have hkind : s'.kind = s.kind := h'.at_clear.kind_eq.trans h.at_clear.kind_eq.symm
  have hcontent : s'.content = s.content := h'.at_clear.content_eq.trans h.at_clear.content_eq.symm
  intro target htarget
  rw [canSeek, hkind, hcontent]
  exact hseek target (by rwa [← hcontent])

theorem seekable_file (h : At .file content offset s) (hcontent : content.length < 2 ^ 63) :
    s.Seekable := by
  intro target htarget
  rw [h.content_eq] at htarget
  simp only [canSeek, h.kind_eq, decide_eq_true_eq]
  omega

theorem giveBack_at (offset : Nat) {n : Nat} (h : Near kind content (offset + n) s)
    (hseek : s.Seekable) (hoffset : offset ≤ content.length) :
    At kind content offset (s.giveBack n) := by
  have hposition : s.position - n = offset := by
    have : s.position = offset + n := h.at_clear.position_eq
    omega
  rw [giveBack, hposition]
  have hlength : offset ≤ s.clear.content.length := by rwa [h.at_clear.content_eq]
  exact h.at_clear.seek (hseek offset hlength)

end InputStream

namespace SyncMarker

open InputStream

variable {kind : StreamKind} {content : Bytes} {origin : Nat}

theorem scanFrom_of_read {chunkSize consumed : Nat} {searcher : Searcher} {s s' : InputStream}
    {chunk : Bytes} (hread : s.read chunkSize = (chunk, s')) :
    scanFrom chunkSize consumed searcher s =
      if chunk.length = 0 then .ok consumed s'
      else match searcher.find chunk with
        | (none, searcher') => scanFrom chunkSize (consumed + chunk.length) searcher' s'
        | (some last, _) =>
          if chunk.length - (last + 1) = 0 then .ok (consumed + (last + 1)) s'
          else if (s'.giveBack (chunk.length - (last + 1))).failed then
            .error (.service .giveBack) (s'.giveBack (chunk.length - (last + 1)))
          else .ok (consumed + (last + 1)) (s'.giveBack (chunk.length - (last + 1))) := by
  rw [scanFrom]
  split
  next found s'' hfound =>
    rw [hread] at hfound
    cases hfound
    rfl

/-- What a scan comes to that has passed `consumed` bytes without a whole pattern. -/
theorem scanFrom_cases {chunkSize consumed : Nat} {searcher : Searcher} {s : InputStream}
    (hchunk : 0 < chunkSize) (hseek : s.Seekable) (hs : Near kind content (origin + consumed) s)
    (hconsumed : consumed ≤ (content.drop origin).length)
    (hseen : searcher.Seen ((content.drop origin).take consumed))
    (habsent : Absent searcher.pattern.toList ((content.drop origin).take consumed)) :
    ∃ e s', scanFrom chunkSize consumed searcher s = .ok e s' ∧
      Near kind content (origin + e) s' ∧
      ScanEnd searcher.pattern.toList (content.drop origin) e := by
  induction hleft : s.left using Nat.strongRecOn generalizing consumed searcher s with
  | ind n ih =>
    obtain ⟨hchunkEq, hs'⟩ := hs.read chunkSize
    rw [← List.drop_drop] at hchunkEq hs'
    generalize htext : content.drop origin = text at *
    generalize hread : s.read chunkSize = found at *
    obtain ⟨chunk, s'⟩ := found
    obtain rfl : chunk = (text.drop consumed).take chunkSize := hchunkEq
    have hseek' := hs.seekable hs' hseek
    have hjoin : text.take consumed ++ (text.drop consumed).take chunkSize =
        text.take (consumed + ((text.drop consumed).take chunkSize).length) := by
      rw [List.take_add, ← List.prefix_iff_eq_take.1 (List.take_prefix chunkSize _)]
    have hlength : ((text.drop consumed).take chunkSize).length =
        min chunkSize (text.length - consumed) := by
      rw [List.length_take, List.length_drop]
    rw [scanFrom_of_read hread]
    generalize (text.drop consumed).take chunkSize = chunk at *
    split
    · next hempty =>
      refine ⟨consumed, s', rfl, ?_, .inr ⟨by omega, ?_⟩⟩
      · simpa [hempty] using hs'
      · rw [List.take_of_length_le (by omega)] at habsent
        exact fun i hi => habsent i (by omega)
    · next hne =>
      rcases Searcher.find_cases hseen habsent chunk with ⟨searcher', hfind, hseen', hpattern, habsent'⟩ |
        ⟨last, searcher', hfind, -, -, hlast, hfirst⟩
      · have hsmaller : s'.left < n := by
          have := InputStream.left_read s chunkSize
          rw [hread] at this
          simp only at this
          omega
        rw [hjoin] at hseen' habsent'
        rw [hfind, ← hpattern]
        refine ih _ hsmaller hseek' (by rwa [← Nat.add_assoc]) (by omega) hseen' ?_ rfl
        rwa [hpattern]
      · replace hfirst : FirstEnd searcher.pattern.toList text (consumed + (last + 1)) := by
          have := hfirst.append (chunk.drop (last + 1) ++ text.drop (consumed + chunk.length))
          rwa [List.length_append, List.length_take_of_le hconsumed, List.length_take_of_le hlast,
            List.append_assoc, ← List.append_assoc (chunk.take _), List.take_append_drop,
            ← List.append_assoc, hjoin, List.take_append_drop] at this
        rw [hfind]
        simp only
        split
        · next hexact =>
          refine ⟨_, s', rfl, ?_, .inl hfirst⟩
          have : chunk.length = last + 1 := by omega
          rwa [this, Nat.add_assoc] at hs'
        · next hexcess =>
          have hlengths : origin + (consumed + (last + 1)) ≤ content.length := by
            have := hfirst.le_length
            rw [← htext, List.length_drop] at this
            omega
          have hbehind : origin + (consumed + (last + 1)) + (chunk.length - (last + 1)) =
              origin + consumed + chunk.length := by
            omega
          have hat := giveBack_at (origin + (consumed + (last + 1)))
            (n := chunk.length - (last + 1)) (s := s') (by rwa [hbehind]) hseek' hlengths
          rw [if_neg (by simp [hat.not_failed])]
          exact ⟨_, _, rfl, .of_at hat, .inl hfirst⟩

theorem bytes_ne_nil (m : SyncMarker) : m.bytes ≠ [] :=
  List.ne_nil_of_length_pos (by rw [m.length_eq]; decide)

/-- A scan ends behind the first marker from the offset on, or at the end of the content. -/
theorem advancePast_cases (m : SyncMarker) {chunkSize : Nat} {s : InputStream}
    (hchunk : 0 < chunkSize) (hseek : s.Seekable) (hs : Near kind content origin s) :
    ∃ e s', m.advancePast chunkSize s = .ok e s' ∧ Near kind content (origin + e) s' ∧
      ScanEnd m.bytes (content.drop origin) e := by
  exact scanFrom_cases hchunk hseek hs (Nat.zero_le _) (Searcher.seen_new m.bytes_ne_nil)
    (absent_nil _)

/-- A stream that has failed is at its end for a scan. -/
theorem advancePast_of_failed (m : SyncMarker) {chunkSize : Nat} {s : InputStream}
    (hchunk : 0 < chunkSize) (hs : s.failed = true) :
    m.advancePast chunkSize s = .ok 0 (s.move 0).fail := by
  have hread : s.read chunkSize = ([], (s.move 0).fail) := by
    simp [InputStream.read, InputStream.available, hs, hchunk]
  unfold advancePast
  rw [scanFrom_of_read hread]
  rfl

section Ends

variable {m : SyncMarker} {start e : Nat}

/-- The offsets from `start` on at which the marker ends. -/
def endsFrom (m : SyncMarker) (content : Bytes) (start : Nat) : Set Nat :=
  {e | max start 16 ≤ e ∧ (content.drop (e - 16)).take 16 = m.bytes}

theorem mem_endsFrom : e ∈ m.endsFrom content start ↔
    start ≤ e ∧ e ≤ content.length ∧ m.bytes <:+ content.take e := by
  have hsixteen := m.length_eq
  have hlength : ((content.drop (e - 16)).take 16).length = min 16 (content.length - (e - 16)) := by
    rw [List.length_take, List.length_drop]
  have hlast (he : 16 ≤ e) : (content.drop (e - 16)).take 16 <:+ content.take e := by
    have hsplit : content.take e = content.take (e - 16) ++ (content.drop (e - 16)).take 16 := by
      rw [← List.take_add, Nat.sub_add_cancel he]
    exact hsplit ▸ List.suffix_append _ _
  constructor
  · rintro ⟨hle, hmarker⟩
    have hends := hlast (by omega)
    rw [hmarker] at hends hlength
    exact ⟨by omega, by omega, hends⟩
  · rintro ⟨hstart, hle, hends⟩
    have hmarker := hends.length_le
    rw [List.length_take] at hmarker
    have hsame : m.bytes.length = ((content.drop (e - 16)).take 16).length := by omega
    have hsuffix := List.suffix_of_suffix_length_le hends (hlast (by omega)) (Nat.le_of_eq hsame)
    exact ⟨by omega, (hsuffix.eq_of_length hsame).symm⟩

/-- A marker that ends from the offset on is seen whole by a scan that begins sixteen bytes before
the offset, or at the start of the content. -/
theorem suffix_take_drop_iff {i : Nat} (hi : i ≤ (content.drop (start - 16)).length) :
    m.bytes <:+ (content.drop (start - 16)).take i ↔
      start - 16 + i ∈ m.endsFrom content start := by
  have hsixteen := m.length_eq
  rw [List.length_drop] at hi
  have hseen : (content.drop (start - 16)).take i <:+ content.take (start - 16 + i) := by
    rw [List.take_add]
    exact List.suffix_append _ _
  rw [mem_endsFrom]
  constructor
  · intro hends
    have hmarker := hends.length_le
    rw [List.length_take, List.length_drop] at hmarker
    have hwhole := (hends.trans hseen).length_le
    rw [List.length_take] at hwhole
    exact ⟨by omega, by omega, hends.trans hseen⟩
  · rintro ⟨hstart, hle, hends⟩
    refine List.suffix_of_suffix_length_le hends hseen ?_
    have hmarker := hends.length_le
    rw [List.length_take] at hmarker
    rw [List.length_take, List.length_drop]
    omega

theorem exists_of_mem_endsFrom (h : e ∈ m.endsFrom content start) :
    ∃ i, e = start - 16 + i ∧ 0 < i ∧ i ≤ (content.drop (start - 16)).length ∧
      m.bytes <:+ (content.drop (start - 16)).take i := by
  obtain ⟨hstart, hle, hends⟩ := mem_endsFrom.1 h
  have hmarker := hends.length_le
  rw [m.length_eq, List.length_take] at hmarker
  obtain ⟨i, rfl⟩ := Nat.exists_eq_add_of_le (show start - 16 ≤ e by omega)
  have hi : i ≤ (content.drop (start - 16)).length := by
    rw [List.length_drop]
    omega
  exact ⟨i, rfl, by omega, hi, (suffix_take_drop_iff hi).2 h⟩

theorem isLeast_endsFrom (h : FirstEnd m.bytes (content.drop (start - 16)) e) :
    IsLeast (m.endsFrom content start) (start - 16 + e) := by
  refine ⟨(suffix_take_drop_iff h.le_length).1 h.ends, fun e' he' => ?_⟩
  obtain ⟨i, rfl, hpos, -, hends⟩ := exists_of_mem_endsFrom he'
  exact Nat.add_le_add_left (Nat.not_lt.1 fun hlt => h.first i hlt hpos hends) _

/-- The scan from sixteen bytes before the offset finds the first marker that ends from the
offset on, or there is none. -/
theorem least_or_none (h : ScanEnd m.bytes (content.drop (start - 16)) e) :
    IsLeast (m.endsFrom content start) (start - 16 + e) ∨
      m.endsFrom content start = ∅ ∧ e = (content.drop (start - 16)).length := by
  rcases h with hfirst | ⟨hend, hnone⟩
  · exact .inl (isLeast_endsFrom hfirst)
  · refine .inr ⟨Set.eq_empty_of_forall_notMem fun e' he' => ?_, hend⟩
    obtain ⟨i, rfl, hpos, hle, hends⟩ := exists_of_mem_endsFrom he'
    exact hnone i (hend ▸ hle) hpos hends

end Ends

end SyncMarker
end BlockContainer
