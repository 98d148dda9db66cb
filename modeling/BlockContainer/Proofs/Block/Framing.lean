import BlockContainer.Block.Basic
import BlockContainer.Proofs.Stream.Position

/-! # Framed blocks

A byte string spells a block when it is a count and a length in any spelling, the payload
and the marker. Reading succeeds exactly on what begins with such a string, if the framing
and the payload do not exceed what is said to be left of the file.
-/
namespace BlockContainer.Block

open InputStream

/-- The bytes are the block, behind a framing in some spelling. -/
structure Spelled (marker : SyncMarker) (b : Block) (framing bytes : Bytes) : Prop where
  framed : ∃ count length n, framing = count ++ length ∧ Varint.Spells count b.recordCount ∧
    Varint.Spells length n ∧ n.toInt = b.payload.length
  count_nonneg : 0 ≤ b.recordCount.toInt
  bytes_eq : bytes = framing ++ (b.payload ++ marker.bytes)

namespace Spelled

variable {marker : SyncMarker} {b : Block} {framing bytes : Bytes}

theorem length_eq (h : Spelled marker b framing bytes) :
    bytes.length = framing.length + b.payload.length + 16 := by
  rw [h.bytes_eq, List.length_append, List.length_append, marker.length_eq]
  omega

theorem framing_pos (h : Spelled marker b framing bytes) : 0 < framing.length := by
  obtain ⟨count, length, n, rfl, hcount, -, -⟩ := h.framed
  have := hcount.length_pos
  rw [List.length_append]
  omega

end Spelled

variable {kind : StreamKind} {content : Bytes} {offset : Nat} {s : InputStream}
variable {marker : SyncMarker} {b : Block} {framing bytes : Bytes}

theorem readFraming_at (h : At kind content offset s)
    (hb : Spelled marker b framing bytes) {t : Bytes} (hcontent : content.drop offset = bytes ++ t)
    {remaining : Nat} (hremaining : framing.length + b.payload.length ≤ remaining) :
    ∃ s', readFraming remaining s = .ok ⟨offset, b.recordCount, b.payload.length⟩ s' ∧
      At kind content (offset + framing.length) s' := by
  obtain ⟨count, length, n, rfl, hcount, hlength, hn⟩ := hb.framed
  have hfirst : content.drop offset = count ++ (length ++ (b.payload ++ marker.bytes ++ t)) := by
    rw [hcontent, hb.bytes_eq]
    simp only [List.append_assoc]
  obtain ⟨s₁, hread₁, hat₁⟩ := takes_readLong hcount h hfirst
  obtain ⟨s₂, hread₂, hat₂⟩ := takes_readLong hlength hat₁ (drop_behind hfirst)
  have hpayload : n.toInt.toNat = b.payload.length := by omega
  have hframing : s₂.position - s.position = (count ++ length).length := by
    rw [hat₂.position_eq, h.position_eq, List.length_append]
    omega
  rw [List.length_append, ← Nat.add_assoc]
  refine ⟨s₂, ?_, hat₂⟩
  have hsigns : 0 ≤ b.recordCount.toInt ∧ 0 ≤ n.toInt := ⟨hb.count_nonneg, by omega⟩
  have hroom : s₂.position - s.position ≤ remaining ∧
      n.toInt.toNat ≤ remaining - (s₂.position - s.position) := by omega
  simp only [readFraming, Runs.get_bind, Runs.bind_of_ok hread₁, Runs.bind_of_ok hread₂]
  rw [Runs.ensure_bind hsigns, Runs.get_bind, Runs.ensure_bind hroom, hpayload, h.position_eq]
  rfl

theorem takes_readBody (marker : SyncMarker) {payload : Bytes} {f : Framing}
    (hlength : f.length = payload.length) :
    Takes (readBody marker f) (payload ++ marker.bytes) payload := by
  have hpayload := takes_readExactly payload (.blockPayloadShort f.offset)
  have hmarker := takes_readExactly marker.bytes (.blockMarkerMissing f.offset)
  rw [← hlength] at hpayload
  rw [marker.length_eq] at hmarker
  apply hpayload.bind
  apply hmarker.last
  intro kind content offset s t hat _
  exact ⟨s, Runs.ensure_bind rfl _ _ s, hat⟩

/-- Both parts of a block are read where a spelling of it stands. -/
theorem parts_at (h : At kind content offset s) (hb : Spelled marker b framing bytes) {t : Bytes}
    (hcontent : content.drop offset = bytes ++ t) {remaining : Nat}
    (hremaining : framing.length + b.payload.length ≤ remaining) :
    ∃ f s₁ s₂, f.offset = offset ∧ f.count = b.recordCount ∧ readFraming remaining s = .ok f s₁ ∧
      readBody marker f s₁ = .ok b.payload s₂ ∧ At kind content (offset + bytes.length) s₂ := by
  obtain ⟨s₁, hread₁, hat₁⟩ := readFraming_at h hb hcontent hremaining
  rw [hb.bytes_eq, List.append_assoc] at hcontent
  obtain ⟨s₂, hread₂, hat₂⟩ := takes_readBody marker (f := ⟨offset, b.recordCount, b.payload.length⟩)
    rfl hat₁ (drop_behind hcontent)
  rw [Nat.add_assoc, ← List.length_append, ← hb.bytes_eq] at hat₂
  exact ⟨_, s₁, s₂, rfl, rfl, hread₁, hread₂, hat₂⟩

/-- What begins with a spelling of a block is read as that block. -/
theorem read_at (h : At kind content offset s) (hb : Spelled marker b framing bytes)
    {t : Bytes} (hcontent : content.drop offset = bytes ++ t) (remaining : Nat)
    (hremaining : framing.length + b.payload.length ≤ remaining) :
    ∃ s', read remaining marker s = .ok (b, bytes.length) s' ∧
      At kind content (offset + bytes.length) s' := by
  obtain ⟨f, s₁, s₂, hoffset, hcount, hread₁, hread₂, hat⟩ := parts_at h hb hcontent hremaining
  refine ⟨s₂, ?_, hat⟩
  have hsize : s₂.position - offset = bytes.length := by
    rw [hat.position_eq]
    omega
  simp only [read, Runs.bind_of_ok hread₁, Runs.bind_of_ok hread₂, Runs.get_bind, hoffset, hcount,
    hsize]
  rfl

/-- No spelling of a block is a proper beginning of another one. -/
theorem Spelled.eq_of_begins {b' : Block} {framing' bytes' : Bytes}
    (h : Spelled marker b framing bytes) (h' : Spelled marker b' framing' bytes')
    (hbegins : bytes <+: bytes') : bytes = bytes' := by
  obtain ⟨t, ht⟩ := id hbegins
  have hat : At .file bytes' 0 (.ofBytes .file bytes') := .ofBytes _ _
  have hroom : framing.length + b.payload.length ≤ bytes'.length := by
    have := h.length_eq
    have := hbegins.length_le
    omega
  have hroom' : framing'.length + b'.payload.length ≤ bytes'.length := by
    have := h'.length_eq
    omega
  obtain ⟨s, hread, -⟩ := read_at hat h ht.symm bytes'.length hroom
  obtain ⟨s', hread', -⟩ := read_at hat h' (List.append_nil _).symm bytes'.length hroom'
  have hsame : bytes.length = bytes'.length := by
    rw [hread] at hread'
    injection hread' with hpair
    exact congrArg Prod.snd hpair
  exact hbegins.eq_of_length hsame

theorem behind_of_readFraming (h : At kind content offset s) {remaining : Nat} {f : Framing}
    {s' : InputStream} (hread : readFraming remaining s = .ok f s') :
    ∃ count length n, Varint.Spells count f.count ∧ Varint.Spells length n ∧
      n.toInt = f.length ∧ 0 ≤ f.count.toInt ∧ f.offset = offset ∧
      (count ++ length).length + f.length ≤ remaining ∧
      Behind kind content offset (count ++ length) s' := by
  obtain ⟨_, _, hget, hread⟩ := bind_eq_ok_iff.1 hread
  cases hget
  obtain ⟨c, s₁, hcount, hread⟩ := bind_eq_ok_iff.1 hread
  obtain ⟨count, hc, hbehind₁⟩ := behind_of_readLong h hcount
  obtain ⟨n, s₂, hlength, hread⟩ := bind_eq_ok_iff.1 hread
  obtain ⟨length, hn, hbehind₂⟩ := behind_of_readLong hbehind₁.at_end hlength
  have hbehind := hbehind₁.append hbehind₂
  obtain ⟨_, _, hsigns, hread⟩ := bind_eq_ok_iff.1 hread
  obtain ⟨⟨hcount, hlength⟩, rfl⟩ := ensure_eq_ok_iff.1 hsigns
  obtain ⟨_, _, hget, hread⟩ := bind_eq_ok_iff.1 hread
  cases hget
  obtain ⟨_, _, hroom, hread⟩ := bind_eq_ok_iff.1 hread
  obtain ⟨⟨hframing, hpayload⟩, rfl⟩ := ensure_eq_ok_iff.1 hroom
  cases hread
  rw [hbehind.at_end.position_eq, h.position_eq] at hframing hpayload
  refine ⟨count, length, n, hc, hn, by simp only; omega, hcount, h.position_eq, ?_, hbehind⟩
  simp only
  omega

theorem behind_of_readBody (h : At kind content offset s) {f : Framing} {payload : Bytes}
    {s' : InputStream} (hread : readBody marker f s = .ok payload s') :
    payload.length = f.length ∧ Behind kind content offset (payload ++ marker.bytes) s' := by
  obtain ⟨p, s₁, hpayload, hread⟩ := bind_eq_ok_iff.1 hread
  obtain ⟨hlength, hbehind₁⟩ := behind_of_readExactly h hpayload
  obtain ⟨found, s₂, hfound, hread⟩ := bind_eq_ok_iff.1 hread
  obtain ⟨-, hbehind₂⟩ := behind_of_readExactly hbehind₁.at_end hfound
  obtain ⟨_, _, hmarker, hread⟩ := bind_eq_ok_iff.1 hread
  obtain ⟨rfl, rfl⟩ := ensure_eq_ok_iff.1 hmarker
  cases hread
  exact ⟨hlength, hbehind₁.append hbehind₂⟩

/-- A framing and a body that are read one behind the other spell a block. -/
theorem spelled_of_parts (h : At kind content offset s) {remaining : Nat} {f : Framing}
    {s₁ s₂ : InputStream} {payload : Bytes} (hframing : readFraming remaining s = .ok f s₁)
    (hbody : readBody marker f s₁ = .ok payload s₂) :
    ∃ framing bytes t, Spelled marker ⟨f.count, payload⟩ framing bytes ∧
      content.drop offset = bytes ++ t ∧ framing.length + payload.length ≤ remaining ∧
      f.offset = offset ∧ At kind content (offset + bytes.length) s₂ := by
  obtain ⟨count, length, n, hc, hn, hlength, hsign, hoffset, hroom, hbehind₁⟩ :=
    behind_of_readFraming h hframing
  obtain ⟨hpayload, hbehind₂⟩ := behind_of_readBody hbehind₁.at_end hbody
  obtain ⟨⟨t, ht⟩, hat⟩ := hbehind₁.append hbehind₂
  have hspelled : Spelled marker ⟨f.count, payload⟩ (count ++ length)
      ((count ++ length) ++ (payload ++ marker.bytes)) :=
    ⟨⟨count, length, n, rfl, hc, hn, by rw [hpayload]; exact hlength⟩, hsign, rfl⟩
  exact ⟨_, _, t, hspelled, ht.symm, by rw [hpayload]; exact hroom, hoffset, hat⟩

/-- What is read as a block begins with a spelling of it. -/
theorem spelled_of_read (h : At kind content offset s) {remaining n : Nat}
    {s' : InputStream} (hread : read remaining marker s = .ok (b, n) s') :
    ∃ framing bytes t, Spelled marker b framing bytes ∧ content.drop offset = bytes ++ t ∧
      bytes.length = n ∧ framing.length + b.payload.length ≤ remaining := by
  obtain ⟨f, s₁, hframing, hread⟩ := bind_eq_ok_iff.1 hread
  obtain ⟨payload, s₂, hbody, hread⟩ := bind_eq_ok_iff.1 hread
  obtain ⟨framing, bytes, t, hspelled, hdrop, hroom, hoffset, hat⟩ :=
    spelled_of_parts h hframing hbody
  obtain ⟨_, _, hget, hread⟩ := bind_eq_ok_iff.1 hread
  cases hget
  cases hread
  refine ⟨framing, bytes, t, hspelled, hdrop, ?_, hroom⟩
  rw [hat.position_eq, hoffset]
  omega

end BlockContainer.Block
