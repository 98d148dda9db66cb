import BlockContainer.Proofs.Header.Reading
import BlockContainer.Proofs.Passes

/-! # The passes of reading a header

A string is read chunk after chunk, up to the length in front of it, and the metadata map entry
after entry, up to the counts in front of its blocks. The numbers are what the input says, but
each chunk and each entry has to be there.
-/
namespace BlockContainer

namespace InputStream

/-- In the midst of a string: its length, how much of it is missing and what has been found. -/
structure StringReading where
  stream : InputStream
  length : Nat
  missing : Nat
  found : Bytes

def stringLoop : Loop InputStream StringReading (EStateM.Result FormatError InputStream Bytes) where
  enter s :=
    match readLong s with
    | .error e s => .leave (.error e s)
    | .ok length s =>
      if length.toInt < 0 then .leave (.error (.negativeLength length) s)
      else .again ⟨s, length.toInt.toNat, length.toInt.toNat, []⟩
  body r :=
    if r.missing = 0 then .leave (.ok r.found r.stream)
    else
      match readExactly (min r.missing chunkSize) (.streamEndInString r.length) r.stream with
      | .error e s => .leave (.error e s)
      | .ok chunk s => .again ⟨s, r.length, r.missing - chunkSize, r.found ++ chunk⟩

def StringReading.left (r : StringReading) : Nat := r.stream.left

def StringReading.run (r : StringReading) : EStateM.Result FormatError InputStream Bytes :=
  ((r.found ++ ·) <$> readChunks (.streamEndInString r.length) r.missing) r.stream

theorem consumes_stringLoop : stringLoop.Consumes StringReading.left := by
  intro r r' hpass
  simp only [stringLoop] at hpass
  split at hpass
  · cases hpass
  · next hmissing =>
    have hchunk : 0 < chunkSize := by decide
    split at hpass
    · cases hpass
    · next chunk s hread =>
      have hless := consumes_readExactly _ _ hread
      cases hpass
      change s.left + 1 ≤ r.stream.left
      omega

theorem readChunks_of_ne {n : Nat} (hn : n ≠ 0) (otherwise : FormatError) :
    readChunks otherwise n = do
      let chunk ← readExactly (min n chunkSize) otherwise
      let rest ← readChunks otherwise (n - chunkSize)
      return chunk ++ rest := by
  rw [readChunks, if_neg hn]

theorem stringLoop_of_chunk {r : StringReading} (hmissing : r.missing ≠ 0) {chunk : Bytes}
    {s : InputStream} (hread : readExactly (min r.missing chunkSize) (.streamEndInString r.length)
      r.stream = .ok chunk s) :
    stringLoop.body r = .again ⟨s, r.length, r.missing - chunkSize, r.found ++ chunk⟩ := by
  simp only [stringLoop, if_neg hmissing, hread]

theorem StringReading.run_eq (r : StringReading) :
    r.run = (stringLoop.body r).result StringReading.run := by
  by_cases hmissing : r.missing = 0
  · have hrun : readChunks (.streamEndInString r.length) 0 r.stream = .ok [] r.stream := by
      rw [readChunks]
      rfl
    simp only [stringLoop, run, if_pos hmissing, Pass.result_leave]
    rw [hmissing, Runs.map_of_ok _ hrun, List.append_nil]
  · cases hread : readExactly (min r.missing chunkSize) (.streamEndInString r.length) r.stream with
    | error e s =>
      simp only [stringLoop, run, readChunks_of_ne hmissing, if_neg hmissing, hread]
      exact Runs.map_of_error _ (Runs.bind_of_error hread)
    | ok chunk s =>
      rw [stringLoop_of_chunk hmissing hread, Pass.result_again, run, run,
        readChunks_of_ne hmissing]
      cases hrest : readChunks (.streamEndInString r.length) (r.missing - chunkSize) s with
      | error e s' =>
        rw [Runs.map_of_error _ hrest]
        exact Runs.map_of_error _ ((Runs.bind_of_ok hread).trans (Runs.bind_of_error hrest))
      | ok rest s' =>
        rw [Runs.map_of_ok _ hrest, List.append_assoc]
        exact Runs.map_of_ok _ ((Runs.bind_of_ok hread).trans (Runs.bind_of_ok hrest))

theorem endsOnInput_readString : stringLoop.EndsOnInput left StringReading.left readString := by
  refine consumes_stringLoop.endsOnInput StringReading.run_eq (fun s => ?_) fun s r henter => ?_
  · rw [readString]
    simp only [stringLoop]
    cases hlength : readLong s with
    | error e s' => exact Runs.bind_of_error hlength
    | ok length s' =>
      rw [Runs.bind_of_ok hlength]
      simp only
      split
      · rfl
      · simp only [Pass.result_again, StringReading.run, List.nil_append]
        exact (congrFun (id_map _) s').symm
  · simp only [stringLoop] at henter
    split at henter
    · cases henter
    · next length s' hlength =>
      have hless := consumes_readLong hlength
      split at henter
      · cases henter
      · cases henter
        exact Nat.le_of_succ_le hless

end InputStream

namespace Header

/-- In the midst of the metadata map: where the header started, if that can be told, and how many
entries of the present block are still to come. -/
structure MapReading where
  start : Option Nat
  pending : Nat
  reading : HeaderReading

def conclude (start : Option Nat) : Filling Unit := do
  readMarker
  let stop := (← get).stream.tell?
  fill fun h => { h with size := stop.getD 0 - start.getD 0 }

def mapLoop : Loop HeaderReading MapReading (EStateM.Result FormatError HeaderReading Unit) where
  enter s :=
    match onStream readMagic s with
    | .error e s => .leave (.error e s)
    | .ok () s' =>
      .again ⟨s.stream.tell?, 0, { s' with header := { s'.header with metadata := ∅ } }⟩
  body r :=
    match r.pending with
    | 0 =>
      match onStream readEntryCount r.reading with
      | .error e s => .leave (.error e s)
      | .ok 0 s => .leave (conclude r.start s)
      | .ok n s => .again ⟨r.start, n, s⟩
    | n + 1 =>
      match readEntry r.reading with
      | .error e s => .leave (.error e s)
      | .ok () s => .again ⟨r.start, n, s⟩

def MapReading.left (r : MapReading) : Nat := Header.left r.reading

/-- The rest of the header: what is pending, the blocks behind it, and what concludes the header. -/
def MapReading.run (r : MapReading) : EStateM.Result FormatError HeaderReading Unit :=
  (do readEntries r.pending; readMap; conclude r.start : Filling Unit) r.reading

theorem consumes_mapLoop : mapLoop.Consumes MapReading.left := by
  intro r r' hpass
  simp only [mapLoop] at hpass
  split at hpass
  · split at hpass
    · cases hpass
    · cases hpass
    · next hcount =>
      have hless := consumes_onStream consumes_readEntryCount hcount
      cases hpass
      exact hless
  · split at hpass
    · cases hpass
    · next hentry =>
      have hless := consumes_readEntry hentry
      cases hpass
      exact Nat.le_of_succ_le hless

theorem MapReading.run_eq (r : MapReading) : r.run = (mapLoop.body r).result MapReading.run := by
  rcases r with ⟨start, pending, s⟩
  cases pending with
  | zero =>
    have hmap : run ⟨start, 0, s⟩ = (readMap >>= fun _ => conclude start : Filling Unit) s := rfl
    rw [hmap, readMap_eq, bind_assoc]
    simp only [mapLoop]
    cases hcount : onStream readEntryCount s with
    | error e s' => exact Runs.bind_of_error hcount
    | ok n s' =>
      rw [Runs.bind_of_ok hcount]
      cases n with
      | zero => rfl
      | succ n =>
        rw [if_neg n.succ_ne_zero]
        exact congrFun (bind_assoc (m := Filling) _ (fun _ => readMap) fun _ => conclude start) s'
  | succ n =>
    have hentries : run ⟨start, n + 1, s⟩ =
        (readEntry >>= fun _ => do readEntries n; readMap; conclude start : Filling Unit) s := by
      rw [run, readEntries, bind_assoc]
    rw [hentries]
    simp only [mapLoop]
    cases hentry : readEntry s with
    | error e s' => exact Runs.bind_of_error hentry
    | ok u s' => exact Runs.bind_of_ok hentry

theorem consumes_readMagic : Consumes InputStream.left 0 readMagic := by
  refine Consumes.bindZero (k := 0) (InputStream.consumes_readExactly _ _) fun found => ?_
  exact Consumes.ite (Consumes.throw _) (Consumes.ite (Consumes.throw _) (Consumes.pure _))

theorem endsOnInput_read : mapLoop.EndsOnInput left MapReading.left read := by
  refine consumes_mapLoop.endsOnInput MapReading.run_eq (fun s => ?_) fun s r henter => ?_
  · rw [read, Runs.get_bind]
    simp only [mapLoop]
    cases hmagic : onStream readMagic s with
    | error e s' => exact Runs.bind_of_error hmagic
    | ok u s' => exact Runs.bind_of_ok hmagic
  · simp only [mapLoop] at henter
    split at henter
    · cases henter
    · next s' hmagic =>
      have hless := consumes_onStream consumes_readMagic hmagic
      cases henter
      exact hless

end Header
end BlockContainer
