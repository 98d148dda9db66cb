import BlockContainer.Proofs.Output.Delivery
import BlockContainer.Proofs.Record.Decoding
import BlockContainer.Proofs.Varint.Shortest

/-! # Integers as they are read

Buffers and streams read the same integers. What is read is the integer that the bytes spell,
as long as sixty-four bits hold it. Of the tenth group a word has room for one bit, and of a
larger one the bits beyond are lost. What is written is read back, and nothing shorter is.
-/
namespace BlockContainer

namespace Varint

variable {b leading : Bytes} {last : UInt8}

/-- Ten groups are the first nine of them, which have sixty-three bits, and the tenth. -/
theorem Grouped.spelled_of_ten (h : Grouped b leading last) (hten : b.length = 10) :
    spelled leading < 2 ^ 63 ∧ spelled b = spelled leading + 2 ^ 63 * last.toNat := by
  have hnine : leading.length = 9 := by
    have hlength := hten
    rw [h.eq, List.length_append, List.length_singleton] at hlength
    omega
  have hlast : last.toNat < 128 := by
    simpa [continues, UInt8.le_iff_toNat_le] using h.ended
  have hleading := spelled_lt leading
  rw [hnine] at hleading
  refine ⟨hleading, ?_⟩
  rw [h.eq, spelled_append, spelled_cons, spelled_nil, Nat.mod_eq_of_lt hlast, hnine]
  rfl

/-- The tenth group reaches beyond the word as soon as it is above one. -/
theorem Grouped.beyond_of_large (h : Grouped b leading last) (hten : b.length = 10)
    (hlarge : 1 < last) : 2 ^ 64 ≤ spelled b := by
  obtain ⟨-, hspelled⟩ := h.spelled_of_ten hten
  have htwo : 1 < last.toNat := UInt8.lt_iff_toNat_lt.1 hlarge
  omega

/-- Only the tenth group can reach beyond the word. -/
theorem Grouped.spelled_cases (h : Grouped b leading last) :
    spelled b < 2 ^ 64 ∨ b.length = 10 ∧ 1 < last ∧ 2 ^ 64 ≤ spelled b := by
  by_cases hten : b.length = 10
  · by_cases hlarge : 1 < last
    · exact .inr ⟨hten, hlarge, h.beyond_of_large hten hlarge⟩
    · obtain ⟨hleading, hspelled⟩ := h.spelled_of_ten hten
      have hone : last.toNat ≤ 1 := Nat.not_lt.1 fun h => hlarge (UInt8.lt_iff_toNat_lt.2 h)
      left
      omega
  · have hbelow := spelled_lt b
    have hlength := h.length_le
    have hnine : 128 ^ b.length ≤ 128 ^ 9 := Nat.pow_le_pow_right (by decide) (by omega)
    left
    omega

/-- The integer that a reader makes of a group sequence: the one that it spells or, where the
tenth group is too large, the one that is left of it in sixty-four bits. -/
def Conveys (b : Bytes) (last : UInt8) (n : Int) : Prop :=
  spelled b < 2 ^ 64 ∧ n = ZigZag.integer (spelled b) ∨
    (b.length = 10 ∧ 1 < last ∧ 2 ^ 64 ≤ spelled b) ∧ n = ZigZag.integer (spelled b % 2 ^ 64)

theorem Grouped.conveys (h : Grouped b leading last) :
    Conveys b last (ZigZag.decode (UInt64.ofNat (spelled b))).toInt := by
  rw [ZigZag.toInt_decode, UInt64.toNat_ofNat']
  rcases h.spelled_cases with hwhole | hcut
  · exact .inl ⟨hwhole, by rw [Nat.mod_eq_of_lt hwhole]⟩
  · exact .inr ⟨hcut, rfl⟩

theorem Grouped.spells_of_conveys {n : Int64} (h : Grouped b leading last)
    (hn : Conveys b last n.toInt) : Spells b n := by
  refine spells_iff.2 ⟨leading, last, h, Int64.toInt_inj.1 ?_⟩
  rw [ZigZag.toInt_decode, UInt64.toNat_ofNat']
  rcases hn with ⟨hwhole, hn⟩ | ⟨-, hn⟩
  · rw [hn, Nat.mod_eq_of_lt hwhole]
  · exact hn.symm

/-- Ten groups stand at the front, and the tenth is larger than the room that a word has for it. -/
def Overflows (input : Bytes) : Prop :=
  ∃ b leading last, b <+: input ∧ Grouped b leading last ∧ b.length = 10 ∧ 1 < last

/-- The groups at the front of a string are the same, wherever the rest of it begins. -/
theorem Grouped.unique {c leading' t u : Bytes} {last' : UInt8} (hb : Grouped b leading last)
    (hc : Grouped c leading' last') (h : b ++ t = c ++ u) : b = c ∧ last = last' := by
  obtain ⟨rfl, -, -⟩ := Spells.unique (spells_iff.2 ⟨_, _, hb, rfl⟩) (spells_iff.2 ⟨_, _, hc, rfl⟩) h
  have hends : leading ++ [last] = leading' ++ [last'] := hb.eq ▸ hc.eq
  exact ⟨rfl, List.singleton_inj.1 (List.append_inj' hends rfl).2⟩

section Reads

variable {σ : Type} (unread : σ → Bytes) (move : σ → Nat → σ) (s : σ)

/-- A read that succeeds takes one group sequence and returns what it conveys. A read that
fails does so where none begins. -/
def TakesGroups : EStateM.Result FormatError σ Int64 → Prop
  | .ok n s' => ∃ b leading last, unread s = b ++ unread s' ∧ s' = move s b.length ∧
      Grouped b leading last ∧ Conveys b last n.toInt
  | .error _ _ => ∀ b leading last t, unread s = b ++ t → ¬Grouped b leading last

/-- A read that succeeds takes one group sequence, which spells an integer of sixty-four bits, and
returns the integer that it stands for. A read that fails does so where none of these begins. -/
def DropsNothing : EStateM.Result FormatError σ Int64 → Prop
  | .ok n s' => ∃ b leading last, unread s = b ++ unread s' ∧ s' = move s b.length ∧
      Grouped b leading last ∧ spelled b < 2 ^ 64 ∧ n.toInt = ZigZag.integer (spelled b)
  | .error _ _ => ∀ b leading last t, unread s = b ++ t → Grouped b leading last →
      2 ^ 64 ≤ spelled b

variable {unread move s}

theorem takesGroups_of_complete {w : UInt64} {k : Nat} (hscan : scan (unread s) = .complete w k)
    (hmove : unread (move s k) = (unread s).drop k) :
    TakesGroups unread move s (.ok (ZigZag.decode w) (move s k)) := by
  obtain ⟨leading, last, hgrouped, hk, rfl⟩ := grouped_of_scan hscan
  refine ⟨_, leading, last, ?_, ?_, hgrouped, hgrouped.conveys⟩
  · rw [hmove, List.take_append_drop]
  · rw [List.length_take_of_le hk]

theorem takesGroups_of_incomplete (hscan : ∀ w k, scan (unread s) ≠ .complete w k)
    (e : FormatError) (s' : σ) : TakesGroups unread move s (.error e s') := by
  intro b leading last t hunread hgrouped
  exact hscan _ _ (hunread ▸ scan_of_grouped hgrouped t)

/-- What an integer is read from is not shorter than its written form. -/
theorem length_encode_le_of_takesGroups {n : Int64} {s' : σ}
    (h : TakesGroups unread move s (.ok n s')) :
    (Encode.long n).length ≤ (unread s).length := by
  obtain ⟨b, leading, last, hunread, -, hgrouped, hconveys⟩ := h
  have hle := length_encode_le_of_spells (hgrouped.spells_of_conveys hconveys)
  rw [hunread, List.length_append]
  exact Nat.le_trans hle (Nat.le_add_right _ _)

/-- Where ten groups with too large a tenth begin, and only there, a read drops something. -/
theorem dropsNothing_iff {result : EStateM.Result FormatError σ Int64}
    (h : TakesGroups unread move s result) :
    DropsNothing unread move s result ↔ ¬Overflows (unread s) := by
  cases result with
  | error e s' =>
    refine ⟨?_, fun _ b leading last t hunread hgrouped => absurd hgrouped (h _ _ _ _ hunread)⟩
    rintro - ⟨b, leading, last, ⟨t, ht⟩, hgrouped, -⟩
    exact h b leading last t ht.symm hgrouped
  | ok n s' =>
    constructor
    · rintro ⟨b, leading, last, hunread, -, hgrouped, hwhole, -⟩
        ⟨c, leading', last', ⟨t, ht⟩, hgrouped', hten, hlarge⟩
      obtain ⟨rfl, rfl⟩ := hgrouped.unique hgrouped' (hunread.symm.trans ht.symm)
      have hbeyond := hgrouped.beyond_of_large hten hlarge
      omega
    · intro hnone
      obtain ⟨b, leading, last, hunread, hmove, hgrouped, hconveys⟩ := h
      obtain ⟨hwhole, hn⟩ | ⟨⟨hten, hlarge, -⟩, -⟩ := hconveys
      · exact ⟨b, leading, last, hunread, hmove, hgrouped, hwhole, hn⟩
      · exact absurd ⟨b, leading, last, ⟨_, hunread.symm⟩, hgrouped, hten, hlarge⟩ hnone

end Reads

end Varint

open Varint

theorem Decoder.takesGroups_readLong (d : Decoder) :
    TakesGroups Decoder.rest Decoder.move d (readLong d) := by
  rw [readLong]
  split
  · next w k hscan => exact takesGroups_of_complete hscan rfl
  · next k hscan => exact takesGroups_of_incomplete (by simp [hscan]) _ _
  · next hscan => exact takesGroups_of_incomplete (by simp [hscan]) _ _

theorem InputStream.available_move (s : InputStream) (n : Nat) :
    (s.move n).available = s.available.drop n := by
  rw [available, available, move]
  cases s.failed <;> simp

theorem InputStream.takesGroups_readLong (s : InputStream) :
    TakesGroups available move s (readLong s) := by
  rw [readLong]
  split
  · next w k hscan => exact takesGroups_of_complete hscan (s.available_move k)
  · next k hscan => exact takesGroups_of_incomplete (by simp [hscan]) _ _
  · next hscan => exact takesGroups_of_incomplete (by simp [hscan]) _ _

/-- Nothing of an integer is dropped, by a buffer or by a stream, except where ten groups begin
and the tenth is above one. An integer is read where a group sequence of up to ten bytes begins and
nowhere else. It is the integer that they spell, or the low sixty-four bits of what ten groups
spell beyond these. A narrow integer is read only where the same holds of it. -/
theorem reads_whole_or_cut (d : Decoder) (s : InputStream) :
    (DropsNothing Decoder.rest Decoder.move d (Decoder.readLong d) ↔ ¬Overflows d.rest) ∧
    (DropsNothing InputStream.available InputStream.move s (InputStream.readLong s) ↔
      ¬Overflows s.available) ∧
    TakesGroups Decoder.rest Decoder.move d (Decoder.readLong d) ∧
    TakesGroups InputStream.available InputStream.move s (InputStream.readLong s) ∧
    ∀ n d', Decoder.readInt d = .ok n d' →
      ∃ b leading last, d.rest = b ++ d'.rest ∧ d' = d.move b.length ∧
        Grouped b leading last ∧ Conveys b last n.toInt := by
  have hbuffer := d.takesGroups_readLong
  have hstream := s.takesGroups_readLong
  refine ⟨dropsNothing_iff hbuffer, dropsNothing_iff hstream, hbuffer, hstream, ?_⟩
  intro n d' hread
  obtain ⟨m, d₁, hlong, hread⟩ := bind_eq_ok_iff.1 hread
  rw [hlong] at hbuffer
  split at hread
  · next hrange =>
    cases hread
    have hnarrow : (Int32.ofInt m.toInt).toInt = m.toInt :=
      Int32.toInt_ofInt_of_le hrange.1 (Int.lt_add_one_of_le hrange.2)
    rw [hnarrow]
    exact hbuffer
  · cases hread

/-- Two bytes are read as a hundred and fifty by every reader, whatever comes behind them, and
nothing of the integer is dropped. -/
theorem reads_whole_hundred :
    (∃ d', Decoder.readInt (.ofBytes [0xac, 0x02, 0x05]) = .ok 150 d') ∧
    (∃ b leading last, Grouped b leading last ∧ Conveys b last 150) ∧
    DropsNothing Decoder.rest Decoder.move (.ofBytes [0xac, 0x02, 0x05])
      (Decoder.readLong (.ofBytes [0xac, 0x02, 0x05])) ∧
    DropsNothing InputStream.available InputStream.move (.ofBytes .memory [0xac, 0x02, 0x05])
      (InputStream.readLong (.ofBytes .memory [0xac, 0x02, 0x05])) := by
  have hread : Decoder.readInt (.ofBytes [0xac, 0x02, 0x05]) =
      .ok 150 ((Decoder.ofBytes [0xac, 0x02, 0x05]).move 2) := rfl
  have hshort : ¬Overflows [0xac, 0x02, 0x05] := by
    rintro ⟨b, leading, last, hbegins, -, hten, -⟩
    have hle := hbegins.length_le
    rw [hten] at hle
    exact absurd hle (by decide)
  obtain ⟨hbuffer, hstream, -, -, hint⟩ := reads_whole_or_cut
    (.ofBytes [0xac, 0x02, 0x05]) (.ofBytes .memory [0xac, 0x02, 0x05])
  obtain ⟨b, leading, last, -, -, hgrouped, hconveys⟩ := hint _ _ hread
  exact ⟨⟨_, hread⟩, ⟨b, leading, last, hgrouped, hconveys⟩, hbuffer.2 hshort, hstream.2 hshort⟩

def pastWord : Bytes := [0x80, 0x80, 0x80, 0x80, 0x80, 0x80, 0x80, 0x80, 0x80, 0x02]

/-- They are read as zero, by every reader. -/
theorem cut_past_word :
    spelled pastWord = 2 ^ 64 ∧
    (∃ d, Decoder.readLong (.ofBytes pastWord) = .ok 0 d) ∧
    (∃ s, InputStream.readLong (.ofBytes .memory pastWord) = .ok 0 s) ∧
    ∃ d, Decoder.readInt (.ofBytes pastWord) = .ok 0 d :=
  ⟨by decide, ⟨_, rfl⟩, ⟨_, rfl⟩, ⟨_, rfl⟩⟩

/-- What is written of an integer, to a buffer or to a stream, is read back from either, and what
follows is left. It takes one to ten bytes, and from fewer than it takes the integer is not read. -/
theorem long_rereads_shortest (n : Int64) :
    (∀ d t, d.rest = Encode.long n ++ t →
      ∃ d', Decoder.readLong d = .ok n d' ∧ d'.rest = t) ∧
    (∀ s t, InputStream.available s = Encode.long n ++ t →
      ∃ s', InputStream.readLong s = .ok n s' ∧ s'.available = t) ∧
    (∀ e : Encoder, (e.append (Encode.long n)).toBytes = e.toBytes ++ Encode.long n) ∧
    (∀ out : OutputStream, out.Delivers → ∃ out', (Piece.long n).forM OutputStream.write out =
      .ok () out' ∧ out'.accepted = out.accepted ++ Encode.long n) ∧
    1 ≤ (Encode.long n).length ∧ (Encode.long n).length ≤ 10 ∧
    (∀ d d', Decoder.readLong d = .ok n d' → (Encode.long n).length ≤ d.rest.length) ∧
    ∀ s s', InputStream.readLong s = .ok n s' →
      (Encode.long n).length ≤ s.available.length := by
  have hspells := spells_encode n
  refine ⟨?_, ?_, fun e => e.toBytes_append _, ?_, hspells.length_pos, length_encode_le n, ?_, ?_⟩
  · intro d t hrest
    exact ⟨_, Decoder.takes_readLong hspells d t hrest, Decoder.rest_move hrest⟩
  · intro s t hrest
    obtain ⟨w, hscan, hw⟩ := hspells.scan_append t
    refine ⟨s.move (Encode.long n).length, ?_, ?_⟩
    · rw [InputStream.readLong, hrest]
      simp only [Encode.long, hscan, hw]
    · rw [s.available_move, hrest, List.drop_left]
  · intro out hout
    refine ⟨_, OutputStream.forM_write_of_delivers hout _, ?_⟩
    rw [OutputStream.behind, Piece.allBytes_long]
  · intro d d' hread
    exact length_encode_le_of_takesGroups (hread ▸ d.takesGroups_readLong)
  · intro s s' hread
    exact length_encode_le_of_takesGroups (hread ▸ s.takesGroups_readLong)

/-- The least integer takes all ten bytes. -/
theorem long_rereads_least :
    (∃ d', Decoder.readLong (.ofBytes (Encode.long Int64.minValue ++ [7])) =
      .ok Int64.minValue d' ∧ d'.rest = [7]) ∧
    (Encode.long Int64.minValue).length ≤ 10 := by
  obtain ⟨hbuffer, -, -, -, -, hten, -⟩ := long_rereads_shortest Int64.minValue
  exact ⟨hbuffer (.ofBytes _) [7] rfl, hten⟩

end BlockContainer
