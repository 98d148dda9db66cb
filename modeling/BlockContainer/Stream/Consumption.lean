import BlockContainer.Consumption
import BlockContainer.Stream

/-! # What reads use up

The measure of a stream is the number of bytes it can still deliver.
-/
namespace BlockContainer.InputStream

def left (s : InputStream) : Nat := s.available.length

theorem left_move (s : InputStream) (n : Nat) : (s.move n).left = s.left - n := by
  unfold left available move
  cases s.failed <;> simp

theorem left_fail (s : InputStream) : s.fail.left = 0 := by
  simp [left, available, fail]

theorem left_read (s : InputStream) (n : Nat) :
    (s.read n).2.left + (s.read n).1.length ≤ s.left := by
  have h : (s.available.take n).length ≤ s.left := by
    simp only [left, List.length_take]
    omega
  simp only [read]
  split
  · rw [left_fail]
    omega
  · rw [left_move]
    omega

theorem consumes_readExactly (n : Nat) (otherwise : FormatError) :
    Consumes left n (readExactly n otherwise) := by
  intro s a s' h
  simp only [readExactly] at h
  have := left_read s n
  split at h
  · cases h
    omega
  · cases h

theorem consumes_readLong : Consumes left 1 readLong := by
  intro s a s' h
  simp only [readLong] at h
  split at h
  · next word n hs =>
    have := Varint.scan_complete hs
    cases h
    rw [left_move]
    simp only [left]
    omega
  · cases h
  · cases h

theorem consumes_readChunks (otherwise : FormatError) (n : Nat) :
    Consumes left n (readChunks otherwise n) := by
  induction n using Nat.strongRecOn with
  | ind n ih =>
    rw [readChunks]
    split
    · exact (Consumes.pure _).of_le (by omega)
    · have hchunk : 0 < chunkSize := by decide
      have hrest := ih (n - chunkSize) (by omega)
      refine (Consumes.bind (consumes_readExactly _ _) fun _ =>
        Consumes.bind (k := 0) hrest fun _ => Consumes.pure _).of_le ?_
      omega

theorem consumes_readString : Consumes left 1 readString := by
  refine Consumes.bind (k := 0) consumes_readLong fun n => ?_
  split
  · exact Consumes.throw _
  · exact (consumes_readChunks _ _).of_le (Nat.zero_le _)

end BlockContainer.InputStream
