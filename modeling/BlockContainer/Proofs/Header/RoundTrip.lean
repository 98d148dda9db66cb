import BlockContainer.Header.Write
import BlockContainer.Proofs.Header.Reading
import BlockContainer.Proofs.Output.Delivery

/-! # Headers come back as they were written

What is written for a header is one of its layouts, with all entries in one block, in the order
of their keys. So it is read as the same header, with its size, whatever follows. A header that
was read from any layout can be written again, and comes back as well.
-/
namespace BlockContainer

namespace Metadata

theorem place_of_lt {key value : Bytes} {entries : List (Bytes × Bytes)}
    (h : ∀ e ∈ entries, e.1 < key) : place key value entries = entries ++ [(key, value)] := by
  induction entries with
  | nil => rfl
  | cons e rest ih =>
    have hfirst := h e (by simp)
    rw [place, if_neg (List.lt_asymm hfirst), if_pos hfirst, ih fun e' he' => h e' (by simp [he'])]
    rfl

/-- Entries in the order of their keys are put behind those that are there. -/
theorem entries_foldl_insert {m : Metadata} {l : List (Bytes × Bytes)}
    (h : (m.entries ++ l).Pairwise fun a b => a.1 < b.1) :
    (l.foldl (fun m e => m.insert e.1 e.2) m).entries = m.entries ++ l := by
  induction l generalizing m with
  | nil => exact (List.append_nil _).symm
  | cons e rest ih =>
    have hplace : (m.insert e.1 e.2).entries = m.entries ++ [e] := by
      apply place_of_lt
      intro e' he'
      exact (List.pairwise_append.1 h).2.2 e' he' e (by simp)
    have hrest := ih (m := m.insert e.1 e.2) (by rw [hplace]; simpa using h)
    rw [List.foldl_cons, hrest, hplace, List.append_assoc]
    rfl

theorem ofList_entries (m : Metadata) : ofList m.entries = m := by
  have h := entries_foldl_insert (m := ∅) (l := m.entries) m.ordered
  cases m
  exact (mk.injEq ..).mpr h

/-- The number of the entries and their lengths are such as 63 bits hold. -/
structure Fits (m : Metadata) : Prop where
  size : m.size < 2 ^ 63
  entries : ∀ e ∈ m.entries, Header.Writable e

def blocks (m : Metadata) : List (List (Bytes × Bytes)) :=
  if m.entries.isEmpty then [] else [m.entries]

theorem flatten_blocks (m : Metadata) : m.blocks.flatten = m.entries := by
  rw [blocks]
  split
  · next hempty => exact (List.isEmpty_iff.1 hempty).symm
  · exact List.flatten_singleton

end Metadata

namespace Header

open InputStream

theorem allBytes_entries (entries : List (Bytes × Bytes)) :
    Piece.allBytes (entries.flatMap entryPieces) = entries.flatMap entryBytes := by
  induction entries with
  | nil => rfl
  | cons e rest ih =>
    rw [List.flatMap_cons, Piece.allBytes_append, ih, List.flatMap_cons]
    simp [entryPieces, entryBytes]

theorem allBytes_mapPieces {m : Metadata} (h : m.entries ≠ []) :
    Piece.allBytes (mapPieces m) =
      Encode.long (Int64.ofInt m.size) ++ (m.entries.flatMap entryBytes ++ []) := by
  rw [mapPieces, if_neg (by simpa using h), Piece.allBytes_append, Piece.allBytes_long,
    allBytes_entries, List.append_nil]

theorem toBytes_eq (h : Header) :
    h.toBytes = magic ++ [version] ++
      (Piece.allBytes (mapPieces h.metadata) ++ (Encode.long 0 ++ h.marker.bytes)) := by
  change Piece.allBytes h.pieces = _
  simp [pieces, Piece.bytes]

theorem spellsEntries_written {entries : List (Bytes × Bytes)} (h : ∀ e ∈ entries, Writable e) :
    SpellsEntries (entries.flatMap entryBytes) entries := by
  induction entries with
  | nil => exact .nil
  | cons e rest ih =>
    have hrest := ih fun e' he' => h e' (List.mem_cons_of_mem e he')
    exact .cons (spellsEntry_written (h e List.mem_cons_self)) hrest

theorem spellsBlocks_written {m : Metadata} (h : m.Fits) :
    SpellsBlocks (Piece.allBytes (mapPieces m)) m.blocks := by
  by_cases hne : m.entries = []
  · simp only [mapPieces, Metadata.blocks, hne]
    exact .nil
  · have hcount : SpellsCount (Encode.long (Int64.ofInt m.size)) m.entries.length :=
      .plain (Varint.spells_encode _) (toInt_ofInt_length h.size)
    rw [allBytes_mapPieces hne, Metadata.blocks, if_neg (by simpa using hne)]
    exact .cons hne hcount (spellsEntries_written h.entries) .nil

/-- What is written for a header is a layout of it. -/
theorem laidOut_toBytes {h : Header} (hfits : h.metadata.Fits) :
    LaidOut h.toBytes h.metadata.blocks h.marker :=
  ⟨_, _, spellsBlocks_written hfits, Varint.spells_encode 0, toBytes_eq h⟩

theorem entry_le_toBytes {h : Header} {e : Bytes × Bytes} (he : e ∈ h.metadata.entries) :
    e.1.length ≤ h.toBytes.length ∧ e.2.length ≤ h.toBytes.length := by
  have hne : h.metadata.entries ≠ [] := List.ne_nil_of_mem he
  have hentry : List.Sublist (entryBytes e) (h.metadata.entries.flatMap entryBytes) :=
    List.sublist_flatten_of_mem (List.mem_map_of_mem he)
  have hlength := hentry.length_le
  have hall := congrArg List.length (toBytes_eq h)
  rw [allBytes_mapPieces hne] at hall
  simp only [List.length_append, entryBytes, Encode.bytes] at hlength hall
  omega

/-- A header comes back from what is written for it. -/
theorem read_toBytes {h : Header} (hfits : h.metadata.Fits) {kind : StreamKind}
    {content t : Bytes} {offset : Nat} {s : InputStream} (hat : At kind content offset s)
    (hdrop : content.drop offset = h.toBytes ++ t) (h₀ : Header) :
    ∃ s', read { stream := s, header := h₀ } =
        .ok () { stream := s', header := { h with size := kind.told h.toBytes.length } } ∧
      At kind content (offset + h.toBytes.length) s' := by
  have hread := read_of_laidOut (laidOut_toBytes hfits) hat hdrop h₀
  rwa [ofLayout, Metadata.flatten_blocks, Metadata.ofList_entries] at hread

/-- A header that is cut off is not read. -/
theorem read_cut_off {h : Header} (hfits : h.metadata.Fits) {content t : Bytes}
    (hbegins : content <+: h.toBytes ++ t) (hshort : content.length < h.toBytes.length)
    (h₀ : Header) :
    ∃ e s, read { stream := .ofBytes .file content, header := h₀ } = .error e s := by
  cases hread : read { stream := .ofBytes .file content, header := h₀ } with
  | error e s => exact ⟨e, s, rfl⟩
  | ok u r =>
    rcases r with ⟨s, found⟩
    obtain ⟨s', hread'⟩ := read_of_begins hbegins hread h₀
    obtain ⟨s'', hwhole, -⟩ := read_toBytes hfits (.ofBytes .file _) rfl h₀
    cases hread'.symm.trans hwhole
    obtain ⟨-, -, hle, -⟩ := at_of_read hread
    exact absurd hle (Nat.not_le.2 hshort)

/-- Behind anything that was written before, the header is written with its size, and from
where it starts it is read as it was written, whatever follows it and whatever was in the header
that is filled. Its size is read from a stream that tells where it stands. -/
def Rereads (h : Header) : Prop :=
  ∀ out : OutputStream, (out.Delivers → ∃ h' out', write h out = .ok h' out') ∧
    ∀ h' out', write h out = .ok h' out' →
      out.accepted <+: out'.accepted ∧
      h' = { h with size := out'.position - out.position } ∧
      ∀ kind t s h₀, At kind (out'.accepted ++ t) out.position s →
        ∃ s' size, read { stream := s, header := h₀ } =
            .ok () { stream := s', header := { h' with size } } ∧
          (kind ≠ .pipe → size = h'.size) ∧ At kind (out'.accepted ++ t) out'.position s'

theorem rereads_of_fits {h : Header} (hfits : h.metadata.Fits) : Rereads h := by
  have hbytes : Piece.allBytes h.pieces = h.toBytes := rfl
  intro out
  constructor
  · intro hout
    have hrun := OutputStream.writeAll_of_delivers hout h.pieces
    exact ⟨_, _, Runs.bind_of_ok hrun⟩
  · intro h' out' hwrite
    obtain ⟨size, out₁, hrun, hend⟩ := bind_eq_ok_iff.1 hwrite
    cases hend
    obtain ⟨rfl, rfl⟩ := OutputStream.behind_of_writeAll hrun
    have hsize : (out.behind h.toBytes).position = out.position + h.toBytes.length :=
      List.length_append
    rw [hbytes, hsize, Nat.add_sub_cancel_left]
    refine ⟨List.prefix_append _ _, rfl, fun kind t s h₀ hat => ?_⟩
    have hdrop : ((out.behind h.toBytes).accepted ++ t).drop out.position = h.toBytes ++ t := by
      rw [OutputStream.behind, OutputStream.position, List.append_assoc, List.drop_left]
    obtain ⟨s', hread, hat'⟩ := read_toBytes hfits hat hdrop h₀
    exact ⟨s', _, hread, fun hkind => StreamKind.told_eq hkind _, hat'⟩

/-- The map of a header that was read from fewer than 2^63 bytes can be written again. -/
theorem fits_of_laidOut {b : Bytes} {blocks : List (List (Bytes × Bytes))} {marker : SyncMarker}
    (h : LaidOut b blocks marker) (hlength : b.length < 2 ^ 63) :
    (Metadata.ofList blocks.flatten).Fits := by
  obtain ⟨map, zero, hmap, -, rfl⟩ := h
  obtain ⟨hentries, hwritable⟩ := hmap.bounds
  obtain ⟨hmem, hsize⟩ := Metadata.ofList_bounds blocks.flatten
  simp only [List.length_append] at hlength
  exact ⟨by omega, fun e he => hwritable e (hmem e he)⟩

/-- A header comes back from what is written for it, if its counts and lengths fit into 63 bits.
Those of a header that was read from fewer than 2^63 bytes do, in whatever layout it was. -/
theorem written_rereads :
    (∀ h : Header, h.metadata.Fits → Rereads h) ∧
      ∀ kind content offset s h₀ u s' found, content.length < 2 ^ 63 →
        At kind content offset s →
        read { stream := s, header := h₀ } = .ok u { stream := s', header := found } →
        Rereads found := by
  refine ⟨fun h hfits => rereads_of_fits hfits, ?_⟩
  intro kind content offset s h₀ u s' found hlength hat hread
  obtain ⟨b, blocks, hb, hbehind, hfound⟩ := laidOut_of_read hat hread
  have hfits : found.metadata.Fits := by
    have hshort := hbehind.begins.length_le
    rw [List.length_drop] at hshort
    rw [show found.metadata = .ofList blocks.flatten from congrArg Header.metadata hfound]
    exact fits_of_laidOut hb (by omega)
  exact rereads_of_fits hfits

def owlHeader : Header where
  metadata := .ofList [(schemaKey, "owl"), ([], [0x00, 0xff]), (codecKey, "null")]
  marker := ⟨"0123456789abcdef", rfl⟩
  size := 7

theorem written_rereads_owls :
    owlHeader.metadata.Fits ∧ Rereads owlHeader ∧
      ∃ s found, read { stream := .ofBytes .memory nestFile, header := owlHeader } =
        .ok () { stream := s, header := found } ∧ found.metadata.size = 2 ∧ Rereads found := by
  obtain ⟨hwritten, hread⟩ := written_rereads
  have hfits : owlHeader.metadata.Fits := ⟨by decide, by decide⟩
  obtain ⟨s, hrun, -⟩ := read_of_laidOut laidOut_nestFile (.ofBytes .memory nestFile)
    (List.append_nil nestFile).symm owlHeader
  exact ⟨hfits, hwritten owlHeader hfits, s, _, hrun, by decide,
    hread .memory nestFile 0 _ owlHeader () s _ (by decide +kernel) (.ofBytes _ _) hrun⟩

end Header
end BlockContainer
