import BlockContainer.Header.Read
import BlockContainer.Proofs.Stream.Position

/-! # What a header is

The metadata map of a header may be cut into blocks at will, each behind its count or behind
the negated count and a size, and each number may be spelled in more than one way. Reading
accepts just these layouts. It finds the map in which the last value of each key stands, the
marker, and the size of the whole, whatever comes before and behind.
-/
namespace BlockContainer

namespace Metadata

def lastValue (entries : List (Bytes × Bytes)) (key : Bytes) : Option Bytes :=
  (entries.reverse.find? fun e => e.1 == key).map Prod.snd

theorem lastValue_cons (e : Bytes × Bytes) (rest : List (Bytes × Bytes)) (key : Bytes) :
    lastValue (e :: rest) key =
      (lastValue rest key).or (if e.1 = key then some e.2 else none) := by
  unfold lastValue
  rw [List.reverse_cons, List.find?_append]
  cases rest.reverse.find? fun e => e.1 == key with
  | some found => rfl
  | none => by_cases h : e.1 = key <;> simp [h]

theorem find?_place (key value k : Bytes) (entries : List (Bytes × Bytes)) :
    ((place key value entries).find? fun e => e.1 == k).map Prod.snd =
      if key = k then some value else (entries.find? fun e => e.1 == k).map Prod.snd := by
  induction entries with
  | nil => by_cases h : key = k <;> simp [place, h]
  | cons e rest ih =>
    rw [place]
    split
    · by_cases h : key = k <;> simp [h]
    · next hnot =>
      split
      · next hlt =>
        by_cases he : e.1 = k
        · have hne : key ≠ k := by
            rintro rfl
            exact List.lt_irrefl key (he ▸ hlt)
          simp [he, hne]
        · simp [he, ih]
      · next hnot' =>
        have he : e.1 = key := List.le_antisymm hnot hnot'
        by_cases h : key = k <;> simp [he, h]

theorem get?_insert (m : Metadata) (key value k : Bytes) :
    (m.insert key value).get? k = if key = k then some value else m.get? k :=
  find?_place key value k m.entries

theorem get?_foldl_insert (m : Metadata) (entries : List (Bytes × Bytes)) (key : Bytes) :
    (entries.foldl (fun m e => m.insert e.1 e.2) m).get? key =
      (lastValue entries key).or (m.get? key) := by
  induction entries generalizing m with
  | nil => rfl
  | cons e rest ih =>
    rw [List.foldl_cons, ih, get?_insert, lastValue_cons]
    cases lastValue rest key with
    | some value => rfl
    | none => by_cases h : e.1 = key <;> simp [h]

/-- Of entries with the same key the last one is found. -/
theorem get?_ofList (entries : List (Bytes × Bytes)) (key : Bytes) :
    (ofList entries).get? key = lastValue entries key :=
  (get?_foldl_insert ∅ entries key).trans Option.or_none

theorem mem_place {key value : Bytes} {entries : List (Bytes × Bytes)} {e : Bytes × Bytes}
    (h : e ∈ place key value entries) : e = (key, value) ∨ e ∈ entries := by
  induction entries with
  | nil => exact .inl (List.mem_singleton.1 h)
  | cons a rest ih =>
    rw [place] at h
    split at h
    · exact List.mem_cons.1 h
    · next hnot =>
      split at h
      · rcases List.mem_cons.1 h with rfl | h
        · exact .inr List.mem_cons_self
        · exact (ih h).imp_right (List.mem_cons_of_mem a)
      · next hnot' =>
        have ha : a.1 = key := List.le_antisymm hnot hnot'
        rcases List.mem_cons.1 h with rfl | h
        · exact .inl (ha ▸ rfl)
        · exact .inr (List.mem_cons_of_mem a h)

theorem length_place_le (key value : Bytes) (entries : List (Bytes × Bytes)) :
    (place key value entries).length ≤ entries.length + 1 := by
  induction entries with
  | nil => exact Nat.le_refl _
  | cons e rest ih =>
    rw [place]
    split
    · exact Nat.le_refl _
    · split
      · exact Nat.succ_le_succ ih
      · exact Nat.le_succ _

theorem mem_foldl_insert {m : Metadata} {entries : List (Bytes × Bytes)} {e : Bytes × Bytes}
    (h : e ∈ (entries.foldl (fun m e => m.insert e.1 e.2) m).entries) :
    e ∈ m.entries ∨ e ∈ entries := by
  induction entries generalizing m with
  | nil => exact .inl h
  | cons a rest ih =>
    rcases ih h with hm | hrest
    · rcases mem_place hm with rfl | hm
      · exact .inr List.mem_cons_self
      · exact .inl hm
    · exact .inr (List.mem_cons_of_mem a hrest)

theorem size_foldl_insert_le (m : Metadata) (entries : List (Bytes × Bytes)) :
    (entries.foldl (fun m e => m.insert e.1 e.2) m).size ≤ m.size + entries.length := by
  induction entries generalizing m with
  | nil => exact Nat.le_refl _
  | cons a rest ih =>
    have hplace : (m.insert a.1 a.2).size ≤ m.size + 1 := length_place_le a.1 a.2 m.entries
    have hrest := ih (m.insert a.1 a.2)
    rw [List.foldl_cons, List.length_cons]
    omega

/-- A map holds no entries but those that it is made of, and not more. -/
theorem ofList_bounds (entries : List (Bytes × Bytes)) :
    (∀ e ∈ (ofList entries).entries, e ∈ entries) ∧ (ofList entries).size ≤ entries.length := by
  refine ⟨fun e he => (mem_foldl_insert he).resolve_left List.not_mem_nil, ?_⟩
  have h := size_foldl_insert_le ∅ entries
  rwa [show (∅ : Metadata).size = 0 from rfl, Nat.zero_add] at h

end Metadata

theorem SyncMarker.bytes_overwrite (m : SyncMarker) {found : Bytes} (h : found.length = 16) :
    (m.overwrite found).bytes = found := by
  have hrest : m.bytes.drop found.length = [] :=
    List.drop_eq_nil_of_le (Nat.le_of_eq (m.length_eq.trans h.symm))
  simp only [overwrite, hrest, List.append_nil]
  exact List.take_of_length_le (Nat.le_of_eq h)

theorem SyncMarker.overwrite_bytes (m marker : SyncMarker) : m.overwrite marker.bytes = marker := by
  have h := bytes_overwrite m marker.length_eq
  generalize m.overwrite marker.bytes = found at h
  cases found
  cases marker
  cases h
  rfl

namespace Header

open InputStream

section Layout

def SpellsEntry (b : Bytes) (e : Bytes × Bytes) : Prop :=
  ∃ key value, SpellsBytes key e.1 ∧ SpellsBytes value e.2 ∧ b = key ++ value

def entryBytes (e : Bytes × Bytes) : Bytes := Encode.bytes e.1 ++ Encode.bytes e.2

inductive SpellsEntries : Bytes → List (Bytes × Bytes) → Prop where
  | nil : SpellsEntries [] []
  | cons {b c : Bytes} {e : Bytes × Bytes} {entries : List (Bytes × Bytes)} :
      SpellsEntry b e → SpellsEntries c entries → SpellsEntries (b ++ c) (e :: entries)

/-- The count of the entries of a block: the number itself, or the negated one and any integer
in the place of a size. -/
inductive SpellsCount : Bytes → Nat → Prop where
  | plain {b : Bytes} {n : Int64} {count : Nat} :
      Varint.Spells b n → n.toInt = count → SpellsCount b count
  | sized {b c : Bytes} {n size : Int64} {count : Nat} :
      Varint.Spells b n → n.toInt = -count → count ≠ 0 → n ≠ Int64.minValue →
      Varint.Spells c size → SpellsCount (b ++ c) count

inductive SpellsBlocks : Bytes → List (List (Bytes × Bytes)) → Prop where
  | nil : SpellsBlocks [] []
  | cons {count b c : Bytes} {block : List (Bytes × Bytes)}
      {blocks : List (List (Bytes × Bytes))} :
      block ≠ [] → SpellsCount count block.length → SpellsEntries b block →
      SpellsBlocks c blocks → SpellsBlocks (count ++ (b ++ c)) (block :: blocks)

/-- The bytes are a header with these blocks of entries and this marker. -/
def LaidOut (b : Bytes) (blocks : List (List (Bytes × Bytes))) (marker : SyncMarker) : Prop :=
  ∃ map zero, SpellsBlocks map blocks ∧ Varint.Spells zero 0 ∧
    b = magic ++ [version] ++ (map ++ (zero ++ marker.bytes))

def Writable (e : Bytes × Bytes) : Prop := e.1.length < 2 ^ 63 ∧ e.2.length < 2 ^ 63

instance (e : Bytes × Bytes) : Decidable (Writable e) := inferInstanceAs (Decidable (_ ∧ _))

theorem spellsEntry_written {e : Bytes × Bytes} (h : Writable e) : SpellsEntry (entryBytes e) e :=
  ⟨_, _, spellsBytes_encode h.1, spellsBytes_encode h.2, rfl⟩

def insertAll (h : Header) (entries : List (Bytes × Bytes)) : Header :=
  { h with metadata := entries.foldl (fun m e => m.insert e.1 e.2) h.metadata }

def ofLayout (blocks : List (List (Bytes × Bytes))) (marker : SyncMarker) (size : Nat) : Header where
  metadata := .ofList blocks.flatten
  marker
  size

theorem insertAll_append (h : Header) (entries more : List (Bytes × Bytes)) :
    h.insertAll (entries ++ more) = (h.insertAll entries).insertAll more := by
  simp only [insertAll, List.foldl_append]

variable {b map : Bytes} {blocks : List (List (Bytes × Bytes))} {marker : SyncMarker}

theorem SpellsEntry.length_pos {e : Bytes × Bytes} (h : SpellsEntry b e) : 0 < b.length := by
  obtain ⟨_, value, ⟨length, n, hspells, -, rfl⟩, -, rfl⟩ := h
  have hpos := hspells.length_pos
  simp only [List.length_append]
  omega

theorem SpellsEntries.bounds {entries : List (Bytes × Bytes)} (h : SpellsEntries b entries) :
    entries.length ≤ b.length ∧ ∀ e ∈ entries, Writable e := by
  induction h with
  | nil => exact ⟨Nat.le_refl _, fun e he => absurd he List.not_mem_nil⟩
  | cons hentry _ ih =>
    have hpos := hentry.length_pos
    obtain ⟨hlength, hwritable⟩ := ih
    refine ⟨?_, fun e he => ?_⟩
    · rw [List.length_append, List.length_cons]
      omega
    · rcases List.mem_cons.1 he with rfl | he
      · obtain ⟨_, _, hkey, hvalue, -⟩ := hentry
        exact ⟨hkey.length_lt, hvalue.length_lt⟩
      · exact hwritable e he

/-- Entries that stand in a map are fewer than its bytes, and their lengths were spelled. -/
theorem SpellsBlocks.bounds (h : SpellsBlocks map blocks) :
    blocks.flatten.length ≤ map.length ∧ ∀ e ∈ blocks.flatten, Writable e := by
  induction h with
  | nil => exact ⟨Nat.le_refl _, fun e he => absurd he List.not_mem_nil⟩
  | cons _ _ hentries _ ih =>
    obtain ⟨hlength, hwritable⟩ := ih
    obtain ⟨hlength', hwritable'⟩ := hentries.bounds
    refine ⟨?_, fun e he => ?_⟩
    · simp only [List.flatten_cons, List.length_append]
      omega
    · rcases List.mem_append.1 he with he | he
      · exact hwritable' e he
      · exact hwritable e he

end Layout

theorem fill_apply (f : Header → Header) (s : InputStream) (h : Header) :
    fill f { stream := s, header := h } = .ok () { stream := s, header := f h } := rfl

/-- Reading the map by reading a block and then the rest of it. -/
theorem readMap_eq : readMap = (do
    let n ← onStream readEntryCount
    if n = 0 then pure () else readEntries n >>= fun _ => readMap : Filling Unit) := by
  funext s
  rw [readMap]
  split
  · next h => exact (Runs.bind_of_error h).symm
  · next n s₁ h =>
    refine Eq.trans ?_ (Runs.bind_of_ok h).symm
    split
    · rfl
    · split
      · next h => exact (Runs.bind_of_error h).symm
      · next h => exact (Runs.bind_of_ok (f := fun _ => readMap) h).symm

section Reading

variable {α β : Type}

/-- The filling takes just these bytes, whatever follows them, and makes one header of the
other. -/
def Fills (m : Filling α) (b : Bytes) (a : α) (h h' : Header) : Prop :=
  ∀ ⦃kind content offset s t⦄, At kind content offset s → content.drop offset = b ++ t →
    ∃ s', m { stream := s, header := h } = .ok a { stream := s', header := h' } ∧
      At kind content (offset + b.length) s'

namespace Fills

theorem bind {m : Filling α} {f : α → Filling β} {b c : Bytes} {a : α} {x : β} {h h₁ h₂ : Header}
    (hm : Fills m b a h h₁) (hf : Fills (f a) c x h₁ h₂) : Fills (m >>= f) (b ++ c) x h h₂ := by
  intro kind content offset s t hat hcontent
  rw [List.append_assoc] at hcontent
  obtain ⟨s₁, hrun₁, hat₁⟩ := hm hat hcontent
  obtain ⟨s₂, hrun₂, hat₂⟩ := hf hat₁ (drop_behind hcontent)
  rw [Nat.add_assoc, ← List.length_append] at hat₂
  exact ⟨s₂, (Runs.bind_of_ok hrun₁).trans hrun₂, hat₂⟩

theorem pure (a : α) (h : Header) : Fills (Pure.pure a) [] a h h := by
  intro kind content offset s t hat _
  exact ⟨s, rfl, hat⟩

theorem onStream {m : Reading α} {b : Bytes} {a : α} (hm : Takes m b a) (h : Header) :
    Fills (Header.onStream m) b a h h := by
  intro kind content offset s t hat hcontent
  obtain ⟨s', hrun, hat'⟩ := hm hat hcontent
  exact ⟨s', Runs.focus_of_ok hrun, hat'⟩

/-- What is done with the value may take nothing more. -/
theorem last {m : Filling α} {f : α → Filling β} {b : Bytes} {a : α} {x : β} {h h₁ h₂ : Header}
    (hm : Fills m b a h h₁) (hf : Fills (f a) [] x h₁ h₂) : Fills (m >>= f) b x h h₂ := by
  have hrun := hm.bind hf
  rwa [List.append_nil] at hrun

theorem fill (f : Header → Header) (h : Header) : Fills (Header.fill f) [] () h (f h) := by
  intro kind content offset s t hat _
  exact ⟨s, rfl, hat⟩

end Fills

theorem takes_readMagic : Takes readMagic (magic ++ [version]) () := by
  apply (takes_readExactly (magic ++ [version]) _).last
  rw [if_neg (by decide), if_neg (by decide)]
  exact Takes.pure ()

theorem takes_readEntryCount {b : Bytes} {count : Nat} (h : SpellsCount b count) :
    Takes readEntryCount b count := by
  cases h with
  | plain hspells hn =>
    apply (takes_readLong hspells).last
    rw [if_neg fun hmin => ?_, if_neg (by omega), hn, Int.toNat_natCast]
    · exact Takes.pure count
    · have hlow : Int64.minValue.toInt = -2 ^ 63 := by decide
      have := congrArg Int64.toInt hmin
      omega
  | sized hspells hn hcount hmin hsize =>
    apply (takes_readLong hspells).bind
    rw [if_neg hmin, if_pos (by omega), hn, Int.neg_neg, Int.toNat_natCast]
    exact (takes_readLong hsize).last (Takes.pure count)

theorem fills_readEntry {b : Bytes} {e : Bytes × Bytes} (he : SpellsEntry b e) (h : Header) :
    Fills readEntry b () h (h.insertAll [e]) := by
  obtain ⟨key, value, hkey, hvalue, rfl⟩ := he
  apply (Fills.onStream (takes_readString hkey) h).bind
  apply (Fills.onStream (takes_readString hvalue) h).last
  exact Fills.fill _ h

/-- Entries are inserted in the order in which they are read. -/
theorem fills_readEntries {b : Bytes} {entries : List (Bytes × Bytes)}
    (hb : SpellsEntries b entries) (h : Header) :
    Fills (readEntries entries.length) b () h (h.insertAll entries) := by
  induction hb generalizing h with
  | nil => exact Fills.pure () h
  | cons he _ ih => exact (fills_readEntry he h).bind (f := fun _ => readEntries _) (ih _)

variable {kind : StreamKind} {content b t map : Bytes} {offset : Nat} {s : InputStream}
  {blocks : List (List (Bytes × Bytes))} {marker : SyncMarker}

/-- Behind blocks the map is read on as from its start, with their entries in it. -/
theorem readMap_behind_blocks (hmap : SpellsBlocks map blocks) (h : Header)
    (hat : At kind content offset s) (hdrop : content.drop offset = map ++ t) :
    ∃ s', At kind content (offset + map.length) s' ∧
      readMap { stream := s, header := h } =
        readMap { stream := s', header := h.insertAll blocks.flatten } := by
  induction hmap generalizing h offset s with
  | nil => exact ⟨s, hat, rfl⟩
  | @cons count b c block blocks hne hcount hentries _ ih =>
    rw [List.append_assoc, List.append_assoc] at hdrop
    obtain ⟨s₁, hrun₁, hat₁⟩ := Fills.onStream (takes_readEntryCount hcount) h hat hdrop
    have hdrop₁ := drop_behind hdrop
    obtain ⟨s₂, hrun₂, hat₂⟩ := fills_readEntries hentries h hat₁ hdrop₁
    obtain ⟨s', hat', hrest⟩ := ih (h.insertAll block) hat₂ (drop_behind hdrop₁)
    have hfilled : ¬block.length = 0 := fun hzero => hne (List.eq_nil_of_length_eq_zero hzero)
    refine ⟨s', ?_, ?_⟩
    · rwa [List.length_append, List.length_append, ← Nat.add_assoc, ← Nat.add_assoc]
    · rw [List.flatten_cons, insertAll_append, ← hrest]
      refine (congrFun readMap_eq _).trans ?_
      rw [Runs.bind_of_ok hrun₁, if_neg hfilled]
      exact Runs.bind_of_ok (f := fun _ => readMap) hrun₂

theorem fills_readMap {zero : Bytes} (hmap : SpellsBlocks map blocks)
    (hzero : Varint.Spells zero 0) (h : Header) :
    Fills readMap (map ++ zero) () h (h.insertAll blocks.flatten) := by
  intro kind content offset s t hat hdrop
  rw [List.append_assoc] at hdrop
  obtain ⟨s₁, hat₁, hmapped⟩ := readMap_behind_blocks hmap h hat hdrop
  have hend : SpellsCount zero 0 := .plain hzero rfl
  obtain ⟨s', hrun, hat'⟩ := Fills.onStream (takes_readEntryCount hend) _ hat₁ (drop_behind hdrop)
  refine ⟨s', ?_, ?_⟩
  · rw [hmapped, readMap_eq, Runs.bind_of_ok hrun]
    rfl
  · rwa [List.length_append, ← Nat.add_assoc]

theorem fills_readMarker (marker : SyncMarker) (h : Header) :
    Fills readMarker marker.bytes () h { h with marker } := by
  intro kind content offset s t hat hcontent
  have hfound : (content.drop offset).take SyncMarker.size = marker.bytes := by
    rw [hcontent, SyncMarker.size, ← marker.length_eq, List.take_left]
  have hmarker := SyncMarker.overwrite_bytes h.marker marker
  have hlength := congrArg List.length hcontent
  rw [List.length_drop, List.length_append, marker.length_eq] at hlength
  refine ⟨(s.read SyncMarker.size).2, ?_, ?_⟩
  · simp only [readMarker, hat.read, hfound, hmarker]
    exact if_pos marker.length_eq
  · rw [marker.length_eq]
    exact hat.read_of_le (by omega)

/-- Each layout of a header is read, whatever the header held before. -/
theorem read_of_laidOut (hb : LaidOut b blocks marker) (hat : At kind content offset s)
    (hdrop : content.drop offset = b ++ t) (h₀ : Header) :
    ∃ s', read { stream := s, header := h₀ } =
        .ok () { stream := s', header := ofLayout blocks marker (kind.told b.length) } ∧
      At kind content (offset + b.length) s' := by
  obtain ⟨map, zero, hmap, hzero, rfl⟩ := hb
  have hfirst := hdrop
  rw [List.append_assoc] at hfirst
  obtain ⟨s₁, hmagic, hat₁⟩ := Fills.onStream takes_readMagic h₀ hat hfirst
  have hrest := (fills_readMap hmap hzero { h₀ with metadata := ∅ }).bind
    (f := fun _ => readMarker) (fills_readMarker marker _)
  have hbehind := drop_behind hfirst
  rw [← List.append_assoc map] at hbehind
  obtain ⟨s', hrun, hat'⟩ := hrest hat₁ hbehind
  obtain ⟨_, s₂, hmapped, hmarked⟩ := bind_eq_ok_iff.1 hrun
  rw [Nat.add_assoc, ← List.length_append, List.append_assoc map] at hat'
  refine ⟨s', ?_, hat'⟩
  rw [read, Runs.get_bind, Runs.bind_of_ok hmagic, Runs.bind_of_ok (fill_apply _ s₁ h₀),
    Runs.bind_of_ok hmapped, Runs.bind_of_ok hmarked, Runs.get_bind]
  simp only [hat.told hat']
  rfl

/-- Each layout is read as the map in which the last value of each key stands, with the marker
and, from a stream that tells where it stands, the size of the whole. Neither the cut into blocks
nor the spelling of a number makes a difference. Where a count may stand, behind any blocks, the
least integer is refused: it has no counterpart that could be a count. -/
theorem read_layouts :
    (∀ b blocks marker, LaidOut b blocks marker → ∀ kind content offset s t h₀,
      At kind content offset s → content.drop offset = b ++ t →
      ∃ s' size, read { stream := s, header := h₀ } = .ok () { stream := s', header :=
          { metadata := .ofList blocks.flatten, marker, size } } ∧
        (kind ≠ .pipe → size = b.length) ∧ At kind content (offset + b.length) s' ∧
        ∀ key, (Metadata.ofList blocks.flatten).get? key =
          Metadata.lastValue blocks.flatten key) ∧
    ∀ map blocks count, SpellsBlocks map blocks → Varint.Spells count Int64.minValue →
      ∀ kind content offset s t h₀, At kind content offset s →
      content.drop offset = magic ++ [version] ++ (map ++ (count ++ t)) →
      ∃ r, read { stream := s, header := h₀ } = .error .metadataCount r := by
  constructor
  · intro b blocks marker hb kind content offset s t h₀ hat hdrop
    obtain ⟨s', hread, hat'⟩ := read_of_laidOut hb hat hdrop h₀
    exact ⟨s', _, hread, fun hkind => StreamKind.told_eq hkind _, hat', Metadata.get?_ofList _⟩
  · intro map blocks count hmap hcount kind content offset s t h₀ hat hdrop
    obtain ⟨s₁, hmagic, hat₁⟩ := Fills.onStream takes_readMagic h₀ hat hdrop
    obtain ⟨s₂, hat₂, hmapped⟩ :=
      readMap_behind_blocks hmap { h₀ with metadata := ∅ } hat₁ (drop_behind hdrop)
    obtain ⟨s₃, hlong, -⟩ := takes_readLong hcount hat₂ (drop_behind (drop_behind hdrop))
    have hrefused : readEntryCount s₂ = .error .metadataCount s₃ := by
      rw [readEntryCount, Runs.bind_of_ok hlong]
      rfl
    refine ⟨{ stream := s₃, header := insertAll { h₀ with metadata := ∅ } blocks.flatten }, ?_⟩
    rw [read, Runs.get_bind, Runs.bind_of_ok hmagic, Runs.bind_of_ok (fill_apply _ s₁ h₀)]
    refine Runs.bind_of_error (hmapped.trans ?_)
    rw [readMap_eq]
    exact Runs.bind_of_error (Runs.focus_of_error hrefused)

/-- Two entries behind their count, and one behind a negated count and a size. -/
def nestBlocks : List (List (Bytes × Bytes)) :=
  [[("tree", "oak"), ("eggs", "two")], [("tree", "ash")]]

/-- A text of three bytes behind a length in ten. -/
def paddedTwo : Bytes :=
  ([0x86, 0x80, 0x80, 0x80, 0x80, 0x80, 0x80, 0x80, 0x80, 0x00] : Bytes) ++ "two"

def nestMap : Bytes :=
  [0x84, 0x00] ++ (entryBytes ("tree", "oak") ++ (Encode.bytes "eggs" ++ paddedTwo ++ []) ++
    ([0x01] ++ [0x05] ++ (entryBytes ("tree", "ash") ++ [] ++ [])))

theorem spells_nestMap : SpellsBlocks nestMap nestBlocks := by
  have htwo : SpellsBytes paddedTwo "two" := ⟨_, 3, ⟨6, rfl, rfl⟩, rfl, rfl⟩
  have heggs : SpellsEntry _ ("eggs", "two") :=
    ⟨_, _, spellsBytes_encode (by decide), htwo, rfl⟩
  have hplain : SpellsCount [0x84, 0x00] 2 := .plain (n := 2) ⟨4, rfl, rfl⟩ rfl
  have hsized : SpellsCount ([0x01] ++ [0x05]) 1 :=
    .sized (b := [0x01]) (c := [0x05]) (n := -1) ⟨1, rfl, rfl⟩ rfl (by decide) (by decide)
      (⟨5, rfl, rfl⟩ : Varint.Spells [0x05] (-3))
  exact .cons (by decide) hplain (.cons (spellsEntry_written ⟨by decide, by decide⟩) (.cons heggs .nil))
    (.cons (by decide) hsized (.cons (spellsEntry_written ⟨by decide, by decide⟩) .nil) .nil)

def nestFile : Bytes :=
  magic ++ [version] ++ (nestMap ++ ([0x80, 0x00] ++ SyncMarker.zero.bytes))

theorem laidOut_nestFile : LaidOut nestFile nestBlocks .zero :=
  ⟨nestMap, [0x80, 0x00], spells_nestMap, ⟨0, rfl, rfl⟩, rfl⟩

/-- Such a header is read, with a key that stands in both blocks. A count without a counterpart
behind the same blocks is refused. -/
theorem read_layouts_nests :
    (∃ s' m, read { stream := .ofBytes .memory (nestFile ++ "tail"), header := {} } =
        .ok () { stream := s', header :=
          { metadata := m, marker := .zero, size := nestFile.length } } ∧
      m.get? "tree" = some "ash" ∧ m.get? "eggs" = some "two" ∧ m.get? "twig" = none) ∧
    ∃ r, read { stream := .ofBytes .memory (magic ++ [version] ++
        (nestMap ++ (Varint.encode Int64.minValue ++ "tail"))), header := {} } =
      .error .metadataCount r := by
  obtain ⟨hreads, hrefuses⟩ := read_layouts
  constructor
  · obtain ⟨s', size, hread, hsize, -, hmap⟩ := hreads nestFile nestBlocks .zero laidOut_nestFile
      .memory (nestFile ++ "tail") 0 _ "tail" {} (.ofBytes _ _) rfl
    rw [hsize (by decide)] at hread
    exact ⟨s', _, hread, (hmap "tree").trans (by decide), (hmap "eggs").trans (by decide),
      (hmap "twig").trans (by decide)⟩
  · exact hrefuses nestMap nestBlocks _ spells_nestMap (Varint.spells_encode _) .memory _ 0 _
      "tail" {} (.ofBytes _ _) rfl

end Reading

section Accepting

variable {kind : StreamKind} {content : Bytes} {offset : Nat}

theorem behind_of_readMagic {s s' : InputStream} {u : Unit} (hat : At kind content offset s)
    (h : readMagic s = .ok u s') : Behind kind content offset (magic ++ [version]) s' := by
  obtain ⟨found, s₁, hread, h⟩ := bind_eq_ok_iff.1 h
  obtain ⟨-, hbehind⟩ := behind_of_readExactly hat hread
  split at h
  · cases h
  · split at h
    · cases h
    · next hfound =>
      cases h
      rwa [Decidable.not_not.1 hfound] at hbehind

theorem behind_of_readEntryCount {s s' : InputStream} {count : Nat}
    (hat : At kind content offset s) (h : readEntryCount s = .ok count s') :
    ∃ b, SpellsCount b count ∧ Behind kind content offset b s' := by
  obtain ⟨n, s₁, hlong, h⟩ := bind_eq_ok_iff.1 h
  obtain ⟨b, hspells, hbehind⟩ := behind_of_readLong hat hlong
  split at h
  · cases h
  · next hmin =>
    split at h
    · obtain ⟨size, s₂, hsize, h⟩ := bind_eq_ok_iff.1 h
      obtain ⟨c, hspells', hbehind'⟩ := behind_of_readLong hbehind.at_end hsize
      cases h
      exact ⟨b ++ c, .sized hspells (by omega) (by omega) hmin hspells', hbehind.append hbehind'⟩
    · cases h
      exact ⟨b, .plain hspells (by omega), hbehind⟩

variable {r r' : HeaderReading} {u : Unit}

theorem onStream_cases {α : Type} {m : Reading α} {a : α} (h : onStream m r = .ok a r') :
    m r.stream = .ok a r'.stream ∧ r'.header = r.header := by
  obtain ⟨s, hrun, rfl⟩ := focus_eq_ok_iff.1 h
  exact ⟨hrun, rfl⟩

theorem behind_of_readEntry (hat : At kind content offset r.stream) (h : readEntry r = .ok u r') :
    ∃ b e, SpellsEntry b e ∧ Behind kind content offset b r'.stream ∧
      r'.header = r.header.insertAll [e] := by
  obtain ⟨key, r₁, hkey, h⟩ := bind_eq_ok_iff.1 h
  obtain ⟨value, r₂, hvalue, h⟩ := bind_eq_ok_iff.1 h
  obtain ⟨hkey, hheader⟩ := onStream_cases hkey
  obtain ⟨hvalue, hheader'⟩ := onStream_cases hvalue
  obtain ⟨b, hspells, hbehind⟩ := behind_of_readString hat hkey
  obtain ⟨c, hspells', hbehind'⟩ := behind_of_readString hbehind.at_end hvalue
  cases h
  exact ⟨b ++ c, (key, value), ⟨b, c, hspells, hspells', rfl⟩, hbehind.append hbehind',
    congrArg (fun h => h.insertAll [(key, value)]) (hheader'.trans hheader)⟩

theorem behind_of_readEntries {n : Nat} (hat : At kind content offset r.stream)
    (h : readEntries n r = .ok u r') :
    ∃ b entries, entries.length = n ∧ SpellsEntries b entries ∧
      Behind kind content offset b r'.stream ∧ r'.header = r.header.insertAll entries := by
  induction n generalizing offset r with
  | zero =>
    cases h
    exact ⟨[], [], rfl, .nil, .nil hat, rfl⟩
  | succ n ih =>
    obtain ⟨_, r₁, hentry, hrest⟩ := bind_eq_ok_iff.1 h
    obtain ⟨b, e, hspells, hbehind, hheader⟩ := behind_of_readEntry hat hentry
    obtain ⟨c, entries, hn, hspells', hbehind', hheader'⟩ := ih hbehind.at_end hrest
    refine ⟨b ++ c, e :: entries, congrArg Nat.succ hn, .cons hspells hspells',
      hbehind.append hbehind', ?_⟩
    rw [hheader', hheader]
    rfl

/-- What has been read of the map when it ends are blocks, and an empty one behind them. -/
theorem behind_of_readMap (hat : At kind content offset r.stream) (h : readMap r = .ok u r') :
    ∃ map zero blocks, SpellsBlocks map blocks ∧ Varint.Spells zero 0 ∧
      Behind kind content offset (map ++ zero) r'.stream ∧
      r'.header = r.header.insertAll blocks.flatten := by
  fun_induction readMap r generalizing offset with
  | case1 => cases h
  | case2 r r₁ hcount =>
    cases h
    obtain ⟨hcount, hheader⟩ := onStream_cases hcount
    obtain ⟨zero, hspells, hbehind⟩ := behind_of_readEntryCount hat hcount
    cases hspells with
    | plain hspells hn =>
      obtain rfl := Int64.toInt_inj.1 (hn.trans (Int64.toInt_zero).symm)
      exact ⟨[], zero, [], .nil, hspells, hbehind, hheader⟩
    | sized _ _ hne => exact absurd rfl hne
  | case3 => cases h
  | case4 r n r₁ hcount hne r₂ hentries ih =>
    obtain ⟨hcount, hheader⟩ := onStream_cases hcount
    obtain ⟨count, hspells, hbehind⟩ := behind_of_readEntryCount hat hcount
    obtain ⟨b, block, rfl, hspells', hbehind', hheader'⟩ :=
      behind_of_readEntries hbehind.at_end hentries
    obtain ⟨map, zero, blocks, hmap, hzero, hrest, hheader''⟩ := ih hbehind'.at_end h
    have hfilled : block ≠ [] := fun hnil => hne (hnil ▸ rfl)
    refine ⟨count ++ (b ++ map), zero, block :: blocks, .cons hfilled hspells hspells' hmap, hzero,
      ?_, ?_⟩
    · rw [List.append_assoc, List.append_assoc]
      exact hbehind.append (hbehind'.append hrest)
    · rw [hheader'', hheader', hheader, List.flatten_cons, insertAll_append]

theorem behind_of_readMarker (hat : At kind content offset r.stream)
    (h : readMarker r = .ok u r') :
    ∃ marker : SyncMarker, Behind kind content offset marker.bytes r'.stream ∧
      r'.header = { r.header with marker } := by
  simp only [readMarker, hat.read] at h
  split at h
  · next hlength =>
    cases h
    have hbytes := SyncMarker.bytes_overwrite r.header.marker hlength
    refine ⟨_, ⟨?_, ?_⟩, rfl⟩
    · rw [hbytes]
      exact List.take_prefix _ _
    · have hsize : SyncMarker.size = 16 := rfl
      rw [SyncMarker.length_eq]
      rw [List.length_take, List.length_drop] at hlength
      exact hat.read_of_le (by omega)
  · cases h

/-- What is read as a header is a layout of one, and the header is what it lays out. -/
theorem laidOut_of_read (hat : At kind content offset r.stream) (h : read r = .ok u r') :
    ∃ b blocks, LaidOut b blocks r'.header.marker ∧ Behind kind content offset b r'.stream ∧
      r'.header = ofLayout blocks r'.header.marker (kind.told b.length) := by
  obtain ⟨_, _, hget, h⟩ := bind_eq_ok_iff.1 h
  cases hget
  obtain ⟨_, r₁, hmagic, h⟩ := bind_eq_ok_iff.1 h
  obtain ⟨_, r₂, hfill, h⟩ := bind_eq_ok_iff.1 h
  cases hfill
  obtain ⟨_, r₃, hmap, h⟩ := bind_eq_ok_iff.1 h
  obtain ⟨_, r₄, hmarker, h⟩ := bind_eq_ok_iff.1 h
  obtain ⟨_, _, hget, h⟩ := bind_eq_ok_iff.1 h
  cases hget
  cases h
  have hfirst := behind_of_readMagic hat (onStream_cases hmagic).1
  obtain ⟨map, zero, blocks, hspells, hzero, hmiddle, hmapped⟩ :=
    behind_of_readMap (r := { r₁ with header := { r₁.header with metadata := ∅ } })
      hfirst.at_end hmap
  obtain ⟨marker, hlast, hmarked⟩ := behind_of_readMarker hmiddle.at_end hmarker
  have hall := hfirst.append (hmiddle.append hlast)
  rw [List.append_assoc map] at hall
  have hheader : r₄.header = { r₄.header with metadata := .ofList blocks.flatten, marker } := by
    rw [hmarked, hmapped]
    rfl
  have hmarker : r₄.header.marker = marker := by rw [hmarked]
  simp only [hmarker]
  refine ⟨_, blocks, ⟨map, zero, hspells, hzero, rfl⟩, hall, ?_⟩
  rw [hheader, hat.told hall.at_end]
  rfl

/-- A header ends where its size says, with its marker. -/
theorem at_of_read {header₀ header : Header} {s : InputStream} {content : Bytes} {u : Unit}
    (h : read { stream := .ofBytes .file content, header := header₀ } =
      .ok u { stream := s, header }) :
    At .file content header.size s ∧ 16 ≤ header.size ∧ header.size ≤ content.length ∧
      header.marker.bytes <:+ content.take header.size := by
  obtain ⟨b, blocks, ⟨map, zero, -, -, hb⟩, hbehind, hheader⟩ :=
    laidOut_of_read (.ofBytes .file content) h
  have hsize : header.size = b.length := congrArg Header.size hheader
  obtain ⟨t, ht⟩ : b <+: content := hbehind.begins
  have hend := hbehind.at_end
  rw [Nat.zero_add] at hend
  have hmarker : header.marker.bytes <:+ b := by
    rw [hb, ← List.append_assoc map, ← List.append_assoc]
    exact List.suffix_append _ _
  have hlength := hmarker.length_le
  rw [SyncMarker.length_eq] at hlength
  rw [hsize]
  refine ⟨hend, hlength, ?_, ?_⟩
  · rw [← ht, List.length_append]
    exact Nat.le_add_right _ _
  · rwa [← ht, List.take_left]

/-- What comes behind a header does not matter to the reading of it. -/
theorem read_of_begins {header₀ header : Header} {s : InputStream} {content content' : Bytes}
    {u : Unit} (hbegins : content <+: content')
    (h : read { stream := .ofBytes .file content, header := header₀ } =
      .ok u { stream := s, header }) (h₀ : Header) :
    ∃ s', read { stream := .ofBytes .file content', header := h₀ } =
      .ok () { stream := s', header } := by
  obtain ⟨b, blocks, hb, hbehind, hheader⟩ :=
    laidOut_of_read (.ofBytes .file content) h
  obtain ⟨t, ht⟩ := hbehind.begins.trans hbegins
  obtain ⟨s', hread, -⟩ := read_of_laidOut hb (.ofBytes .file content') ht.symm h₀
  rw [← hheader] at hread
  exact ⟨s', hread⟩

end Accepting
end Header
end BlockContainer
