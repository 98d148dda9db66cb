import BlockContainer.Proofs.Block.Framing
import BlockContainer.Proofs.Output.Delivery
import BlockContainer.Proofs.Varint.Shortest

/-! # Blocks one behind another

A block is read exactly where one stands. Blocks that are written one behind another are read
again as they were, with the sizes that writing returned, and blocks whose counts and lengths
stand in their shortest form are written again byte for byte.
-/
namespace BlockContainer.Block

open InputStream

theorem toBytes_eq (b : Block) (marker : SyncMarker) :
    b.toBytes marker = Encode.long b.recordCount ++ Encode.long (Int64.ofInt b.payload.length) ++
      (b.payload ++ marker.bytes) := by
  change Piece.allBytes (b.pieces marker) = _
  simp [pieces, Encode.bytes, Piece.bytes]

theorem length_toBytes_pos (b : Block) (marker : SyncMarker) : 0 < (b.toBytes marker).length := by
  have hsixteen := marker.length_eq
  rw [toBytes_eq]
  simp only [List.length_append]
  omega

theorem length_toBytes_le (b : Block) (marker : SyncMarker) :
    (b.toBytes marker).length ≤ b.payload.length + 36 := by
  have hsixteen := marker.length_eq
  have hcount : (Encode.long b.recordCount).length ≤ 10 := Varint.length_encode_le _
  have hlength : (Encode.long (Int64.ofInt b.payload.length)).length ≤ 10 :=
    Varint.length_encode_le _
  rw [toBytes_eq]
  simp only [List.length_append]
  omega

theorem spelled_toBytes {b : Block} (marker : SyncMarker) (hcount : 0 ≤ b.recordCount.toInt)
    (hlength : b.payload.length < 2 ^ 63) :
    Spelled marker b (Encode.long b.recordCount ++ Encode.long (Int64.ofInt b.payload.length))
      (b.toBytes marker) where
  framed := ⟨_, _, _, rfl, Varint.spells_encode _, Varint.spells_encode _,
    toInt_ofInt_length hlength⟩
  count_nonneg := hcount
  bytes_eq := b.toBytes_eq marker

variable {kind : StreamKind} {content : Bytes} {offset remaining size : Nat} {s s' : InputStream}
variable {marker : SyncMarker} {b : Block}

/-- The bytes begin with the block, which takes so many of them: a count that is not negative and
the length of the payload, in any spelling, the payload and the marker. Of the bytes that remain
there are enough for all but the marker. -/
def Begins (marker : SyncMarker) (remaining : Nat) (b : Block) (size : Nat) (bytes : Bytes) : Prop :=
  ∃ framing block, Spelled marker b framing block ∧ block <+: bytes ∧ block.length = size ∧
    framing.length + b.payload.length ≤ remaining

theorem read_of_begins (h : At kind content offset s)
    (hbegins : Begins marker remaining b size (content.drop offset)) :
    ∃ s', read remaining marker s = .ok (b, size) s' ∧ At kind content (offset + size) s' := by
  obtain ⟨framing, block, hspelled, ⟨t, ht⟩, rfl, hroom⟩ := hbegins
  exact read_at h hspelled ht.symm remaining hroom

theorem begins_of_read (h : At kind content offset s)
    (hread : read remaining marker s = .ok (b, size) s') :
    Begins marker remaining b size (content.drop offset) ∧ At kind content (offset + size) s' := by
  obtain ⟨framing, block, t, hspelled, hdrop, hsize, hroom⟩ := spelled_of_read h hread
  have hbegins : Begins marker remaining b size (content.drop offset) :=
    ⟨framing, block, hspelled, ⟨t, hdrop.symm⟩, hsize, hroom⟩
  obtain ⟨s₁, hread₁, hat⟩ := read_of_begins h hbegins
  cases hread.symm.trans hread₁
  exact ⟨hbegins, hat⟩

theorem error_of_not_begins (h : At kind content offset s)
    (hnone : ¬∃ b size, Begins marker remaining b size (content.drop offset)) :
    ∃ e s', read remaining marker s = .error e s' := by
  cases hread : read remaining marker s with
  | ok found s' => exact absurd ⟨_, _, (begins_of_read h hread).1⟩ hnone
  | error e s' => exact ⟨e, s', rfl⟩

/-- Reads blocks one behind another. What each of them takes does not remain for the next. -/
def readSeries (marker : SyncMarker) : (count remaining : Nat) → Reading (List (Block × Nat))
  | 0, _ => pure []
  | count + 1, remaining => do
    let first ← read remaining marker
    let rest ← readSeries marker count (remaining - first.2)
    return first :: rest

def writeSeries (marker : SyncMarker) : List Block → EStateM Error OutputStream (List Nat)
  | [] => pure []
  | b :: rest => do
    let size ← b.write marker
    let sizes ← writeSeries marker rest
    return size :: sizes

def seriesBytes (marker : SyncMarker) (blocks : List Block) : Bytes :=
  blocks.flatMap fun b => b.toBytes marker

def sized (marker : SyncMarker) (blocks : List Block) : List (Block × Nat) :=
  blocks.map fun b => (b, (b.toBytes marker).length)

theorem zip_sizes (marker : SyncMarker) (blocks : List Block) :
    blocks.zip ((sized marker blocks).map Prod.snd) = sized marker blocks := by
  induction blocks with
  | nil => rfl
  | cons b rest ih => exact congrArg _ ih

theorem write_of_delivers {out : OutputStream} (h : out.Delivers) (b : Block)
    (marker : SyncMarker) :
    b.write marker out = .ok (b.toBytes marker).length (out.behind (b.toBytes marker)) :=
  OutputStream.writeAll_of_delivers h (b.pieces marker)

theorem writeSeries_of_delivers {out : OutputStream} (h : out.Delivers) (marker : SyncMarker)
    (blocks : List Block) :
    writeSeries marker blocks out = .ok ((sized marker blocks).map Prod.snd)
      (out.behind (seriesBytes marker blocks)) := by
  induction blocks generalizing out with
  | nil =>
    have hsame : out.behind [] = out := by rw [OutputStream.behind, List.append_nil]
    exact congrArg _ hsame.symm
  | cons b rest ih =>
    have hboth : (out.behind (b.toBytes marker)).behind (seriesBytes marker rest) =
        out.behind (seriesBytes marker (b :: rest)) := by
      simp only [OutputStream.behind, seriesBytes, List.flatMap_cons, List.append_assoc]
    have hrest := ih (h.behind (b.toBytes marker))
    rw [hboth] at hrest
    rw [writeSeries, Runs.bind_of_ok (write_of_delivers h b marker), Runs.bind_of_ok hrest]
    rfl

def Writable (b : Block) : Prop := 0 ≤ b.recordCount.toInt ∧ b.payload.length < 2 ^ 63

instance (b : Block) : Decidable (Writable b) := inferInstanceAs (Decidable (_ ∧ _))

theorem readSeries_written {blocks : List Block} (hblocks : ∀ b ∈ blocks, Writable b)
    (h : At kind content offset s) {t : Bytes}
    (hdrop : content.drop offset = seriesBytes marker blocks ++ t)
    (hroom : (seriesBytes marker blocks).length ≤ remaining) :
    ∃ s', readSeries marker blocks.length remaining s = .ok (sized marker blocks) s' ∧
      At kind content (offset + (seriesBytes marker blocks).length) s' := by
  induction blocks generalizing offset remaining s with
  | nil => exact ⟨s, rfl, h⟩
  | cons b rest ih =>
    obtain ⟨⟨hcount, hlength⟩, hrest⟩ := List.forall_mem_cons.1 hblocks
    have hspelled := spelled_toBytes marker hcount hlength
    have hboth : seriesBytes marker (b :: rest) = b.toBytes marker ++ seriesBytes marker rest := rfl
    have hsize := hspelled.length_eq
    rw [hboth, List.append_assoc] at hdrop
    rw [hboth, List.length_append] at hroom
    obtain ⟨s₁, hread₁, hat₁⟩ := read_at h hspelled hdrop remaining (by omega)
    have hroom_rest : (seriesBytes marker rest).length ≤
        remaining - (b.toBytes marker).length := by omega
    obtain ⟨s₂, hread₂, hat₂⟩ := ih hrest hat₁ (drop_behind hdrop) hroom_rest
    refine ⟨s₂, ?_, ?_⟩
    · rw [List.length_cons, readSeries, Runs.bind_of_ok hread₁, Runs.bind_of_ok hread₂]
      rfl
    · rwa [hboth, List.length_append, ← Nat.add_assoc]

/-- The count and the length that begin the bytes stand in their shortest form. -/
def ShortlyFramed (bytes : Bytes) : Prop :=
  ∃ count length c n, count ++ length <+: bytes ∧ Varint.Shortest count c ∧
    Varint.Shortest length n

def SeriesShortlyFramed (content : Bytes) : Nat → List (Block × Nat) → Prop
  | _, [] => True
  | offset, (_, size) :: rest =>
    ShortlyFramed (content.drop offset) ∧ SeriesShortlyFramed content (offset + size) rest

theorem toBytes_of_shortlyFramed {bytes : Bytes} (h : Begins marker remaining b size bytes)
    (hshort : ShortlyFramed bytes) :
    (b.toBytes marker).length = size ∧ b.toBytes marker <+: bytes := by
  obtain ⟨framing, block, hspelled, ⟨t, ht⟩, hsize, -⟩ := h
  obtain ⟨count, length, n, rfl, hc, hn, hlength⟩ := hspelled.framed
  obtain ⟨count', length', c', n', ⟨u, hu⟩, hc', hn'⟩ := hshort
  have hsame : count ++ (length ++ (b.payload ++ marker.bytes ++ t)) = count' ++ (length' ++ u) := by
    rw [← List.append_assoc count', hu, ← ht, hspelled.bytes_eq]
    simp only [List.append_assoc]
  obtain ⟨rfl, rfl, hsame⟩ := hc.unique hc'.spells hsame
  obtain ⟨rfl, rfl, -⟩ := hn.unique hn'.spells hsame
  have hpayload : Int64.ofInt b.payload.length = n := by rw [← hlength, Int64.ofInt_toInt]
  have hbytes : b.toBytes marker = block := by
    rw [hspelled.bytes_eq, b.toBytes_eq, hpayload, Varint.shortest_iff.1 hc',
      Varint.shortest_iff.1 hn']
    rfl
  exact ⟨hbytes ▸ hsize, t, hbytes ▸ ht⟩

/-- Blocks that are shortly framed are what their bytes would be if they were written. -/
theorem written_of_readSeries {count : Nat} {found : List (Block × Nat)}
    (h : At kind content offset s) (hread : readSeries marker count remaining s = .ok found s')
    (hshort : SeriesShortlyFramed content offset found) :
    found = sized marker (found.map Prod.fst) ∧
      Behind kind content offset (seriesBytes marker (found.map Prod.fst)) s' := by
  induction count generalizing offset remaining s found with
  | zero =>
    cases hread
    exact ⟨rfl, .nil h⟩
  | succ count ih =>
    obtain ⟨⟨b, size⟩, s₁, hfirst, hread⟩ := bind_eq_ok_iff.1 hread
    obtain ⟨rest, s₂, hrest, hread⟩ := bind_eq_ok_iff.1 hread
    cases hread
    obtain ⟨hfirst_short, hrest_short⟩ := hshort
    obtain ⟨hbegins, hat⟩ := begins_of_read h hfirst
    obtain ⟨rfl, hbytes⟩ := toBytes_of_shortlyFramed hbegins hfirst_short
    obtain ⟨hsized, hbehind⟩ := ih hat hrest hrest_short
    have hfront : Behind kind content offset (b.toBytes marker) s₁ := ⟨hbytes, hat⟩
    exact ⟨congrArg _ hsized, hfront.append hbehind⟩

/-- From a stream that tells where it stands a block is read exactly where one begins, with the
number of bytes that it takes, and the stream is left behind its marker. Everything else is a
format error. Blocks that are written are read again as they were, with the sizes that writing
returned. Blocks whose counts and lengths were read in their shortest form are written byte for
byte as they were read. -/
theorem reads_where_written :
    (∀ kind content offset s marker remaining, kind ≠ .pipe → At kind content offset s →
      remaining ≤ content.length - offset →
      (∀ b size, (∃ s', read remaining marker s = .ok (b, size) s') ↔
        Begins marker remaining b size (content.drop offset)) ∧
      (∀ b size s', read remaining marker s = .ok (b, size) s' →
        At kind content (offset + size) s') ∧
      ((¬∃ b size, Begins marker remaining b size (content.drop offset)) →
        ∃ e s', read remaining marker s = .error e s')) ∧
    (∀ marker blocks out, (∀ b ∈ blocks, Writable b) → OutputStream.Delivers out →
      ∃ sizes written out', writeSeries marker blocks out = .ok sizes out' ∧
        out'.accepted = out.accepted ++ written ∧ sizes.length = blocks.length ∧
        ∀ kind content offset s remaining, kind ≠ .pipe → At kind content offset s →
          written <+: content.drop offset → written.length ≤ remaining →
          remaining ≤ content.length - offset →
          ∃ s', readSeries marker blocks.length remaining s = .ok (blocks.zip sizes) s' ∧
            At kind content (offset + written.length) s') ∧
    ∀ kind content offset s marker count remaining found s' out, kind ≠ .pipe →
      At kind content offset s → readSeries marker count remaining s = .ok found s' →
      SeriesShortlyFramed content offset found → OutputStream.Delivers out →
      ∃ bytes out', writeSeries marker (found.map Prod.fst) out =
          .ok (found.map Prod.snd) out' ∧
        out'.accepted = out.accepted ++ bytes ∧ Behind kind content offset bytes s' := by
  refine ⟨?_, ?_, ?_⟩
  · intro kind content offset s marker remaining _ hat _
    refine ⟨fun b size => ⟨?_, ?_⟩, fun b size s' hread => (begins_of_read hat hread).2,
      error_of_not_begins hat⟩
    · rintro ⟨s', hread⟩
      exact (begins_of_read hat hread).1
    · intro hbegins
      obtain ⟨s', hread, -⟩ := read_of_begins hat hbegins
      exact ⟨s', hread⟩
  · intro marker blocks out hblocks hout
    refine ⟨_, _, _, writeSeries_of_delivers hout marker blocks, rfl, by simp [sized], ?_⟩
    intro kind content offset s remaining _ hat ⟨t, ht⟩ hroom _
    rw [zip_sizes]
    exact readSeries_written hblocks hat ht.symm hroom
  · intro kind content offset s marker count remaining found s' out _ hat hread hshort hout
    obtain ⟨hsized, hbehind⟩ := written_of_readSeries hat hread hshort
    have hwritten := writeSeries_of_delivers hout marker (found.map Prod.fst)
    rw [← hsized] at hwritten
    exact ⟨_, _, hwritten, rfl, hbehind⟩

def flock : List Block := [{ recordCount := 2, payload := [7, 8] }, { recordCount := 0 }]

def flockBytes : Bytes :=
  [4, 4, 7, 8] ++ SyncMarker.zero.bytes ++ ([0, 0] ++ SyncMarker.zero.bytes)

theorem shortlyFramed_flock :
    SeriesShortlyFramed (flockBytes ++ "tail") 0 (flock.zip [20, 18]) := by
  have htwo : Varint.Shortest [4] 2 := Varint.shortest_iff.2 (by decide +kernel)
  have hzero : Varint.Shortest [0] 0 := Varint.shortest_iff.2 (by decide +kernel)
  exact ⟨⟨[4], [4], 2, 2, ⟨_, rfl⟩, htwo, htwo⟩, ⟨[0], [0], 0, 0, ⟨_, rfl⟩, hzero, hzero⟩, trivial⟩

/-- They are read with other bytes behind them, after they were written, and are written again as
they were read. The second of them is read by itself as well. -/
theorem reads_where_written_flock :
    (∃ s, readSeries .zero 2 42 (.ofBytes .memory (flockBytes ++ "tail")) =
      .ok (flock.zip [20, 18]) s) ∧
    (∃ out, writeSeries .zero flock { full := false } = .ok [20, 18] out ∧
      out.accepted.length = 38) ∧
    ∃ s, read 18 .zero (.ofBytes .memory (flockBytes.drop 20)) =
      .ok ({ recordCount := 0 }, 18) s := by
  obtain ⟨hone, hseries, hagain⟩ := reads_where_written
  have hout : OutputStream.Delivers { full := false } := ⟨rfl, rfl⟩
  have hsizes : (sized .zero flock).map Prod.snd = [20, 18] := by decide +kernel
  have hbytes : seriesBytes .zero flock = flockBytes := by decide +kernel
  have hwrites := writeSeries_of_delivers hout .zero flock
  rw [hsizes, hbytes] at hwrites
  have hat : At .memory (flockBytes ++ "tail") 0 (.ofBytes .memory (flockBytes ++ "tail")) :=
    .ofBytes _ _
  obtain ⟨sizes, written, out, hwritten, haccepted, -, hreads⟩ :=
    hseries .zero flock _ (by decide) hout
  cases hwrites.symm.trans hwritten
  obtain rfl : flockBytes = written := haccepted
  obtain ⟨s, hread, -⟩ :=
    hreads .memory _ 0 _ 42 (by decide) hat ⟨_, rfl⟩ (by decide) (by decide)
  obtain ⟨_, out, hwritten', -, -⟩ :=
    hagain .memory _ 0 _ .zero 2 42 _ s _ (by decide) hat hread shortlyFramed_flock hout
  refine ⟨⟨s, hread⟩, ⟨out, hwritten', ?_⟩, ?_⟩
  · cases hwrites.symm.trans hwritten'
    rfl
  · have hspelled : Spelled .zero { recordCount := 0 } [0, 0] (flockBytes.drop 20) :=
      ⟨⟨[0], [0], 0, rfl, ⟨0, rfl, rfl⟩, ⟨0, rfl, rfl⟩, rfl⟩, by decide, rfl⟩
    have hbegins : Begins .zero 18 { recordCount := 0 } 18 (flockBytes.drop 20) :=
      ⟨_, _, hspelled, List.prefix_rfl, rfl, by decide⟩
    exact ((hone .memory _ 0 _ .zero 18 (by decide) (.ofBytes _ _) (by decide)).1 _ _).2 hbegins

end BlockContainer.Block
